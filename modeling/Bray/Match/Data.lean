/-
  File:      Bray/Match/Data.lean
  Subject:   PATTERNS, TYPES AND VALUES, as far as the pattern checker (`bray-checker/src/pattern`) and
    the tests that patterns are lowered to look at them.

  A type is the tree of its `TypeData`; what declarations say (fields, variants, payloads, the Boolean
  type) is an environment. A pattern has its name already resolved to a union variant or a constant;
  a node's own recovery covers everything that makes the checker give up on the node alone: syntax
  errors, ambiguous or inaccessible names, bindings in a test, incoherent alternatives, a literal or a
  constant that the type does not accept.
-/
import Bray.Guarantee.Standard

namespace Bray.Match

open Bray.Guarantee (ConstantValueKind)
open Bool (and_eq_true)

abbrev PatternId := Nat
abbrev StructId := Nat
abbrev UnionId := Nat
abbrev VariantId := Nat
abbrev FieldId := Nat
abbrev SubstitutionId := Nat
abbrev Name := Nat

/-! ## 1. Types -/

/-- `TypeData`. The forms that no pattern looks into are one. -/
inductive Ty where
  | error
  | struct (definition : StructId) (substitution : SubstitutionId)
  | union (definition : UnionId) (substitution : SubstitutionId)
  | tuple (elements : List Ty)
  /-- The length, where its term is a known integer. -/
  | array (element : Ty) (length : Option Nat)
  | slice (element : Ty)
  | nullable (target : Ty)
  | borrow (target : Ty)
  | ownedIndirection (target : Ty)
  | other

/-- `unborrowed_type` -/
def Ty.unborrowed : Ty → Ty
  | .borrow target => target.unborrowed
  | ty => ty

/-- One payload field of a variant. -/
structure PayloadField where
  name : Name
  field : FieldId
  /-- `CallablePosition::PositionalOrNamed` -/
  isPositional : Bool

/-- What the declarations of a program say. -/
structure Environment where
  /-- The struct with the representation of a Boolean. -/
  boolean : Option StructId
  fields : StructId → List (Name × FieldId)
  hasFlexibleTrailingMember : StructId → Bool
  variants : UnionId → List VariantId
  unionOf : VariantId → UnionId
  payloadFields : VariantId → List PayloadField
  isTaglessUnion : UnionId → Bool
  /-- The type of a field under a substitution; none when it could not be resolved. -/
  fieldType : FieldId → SubstitutionId → Option Ty
  /-- A scalar has no fields. -/
  boolean_fields : ∀ definition, boolean = some definition → fields definition = []

/-! ## 2. Values -/

/-- A value. The contents of a tagless union are kept for every field of every variant: which of them
is meaningful is not recorded in the value. -/
inductive Value where
  | scalar (kind : ConstantValueKind)
  | absent
  | present (value : Value)
  | tuple (values : List Value)
  | array (values : List Value)
  | product (fields : List FieldId) (values : List Value)
  | union (variant : VariantId) (fields : List FieldId) (values : List Value)
  | tagless (fields : List FieldId) (values : List Value)
  | owned (value : Value)
  | borrowed (value : Value)
  | other

def Value.unborrowed : Value → Value
  | .borrowed value => value.unborrowed
  | value => value

/-- The value may be one of the variant; that of a tagless union may be one of any. -/
def Value.mayBe (variant : VariantId) : Value → Bool
  | .union active _ _ => active == variant
  | .tagless _ _ => true
  | _ => false

section Typing

variable (env : Environment)

/-- **The values of a type.** -/
inductive HasType : Value → Ty → Prop where
  | boolean {definition substitution} (b : Bool) (role : env.boolean = some definition) :
    HasType (.scalar (.boolean b)) (.struct definition substitution)
  | scalar {definition substitution} (kind : ConstantValueKind) (role : env.boolean ≠ some definition)
    (plain : env.fields definition = []) :
    HasType (.scalar kind) (.struct definition substitution)
  | product {definition substitution fields values} (role : env.boolean ≠ some definition)
    (complete : fields = (env.fields definition).map Prod.snd) (arity : values.length = fields.length)
    (typed : ∀ field value ty, (field, value) ∈ fields.zip values →
      env.fieldType field substitution = some ty → HasType value ty) :
    HasType (.product fields values) (.struct definition substitution)
  | union {definition substitution variant fields values} (tagged : env.isTaglessUnion definition = false)
    (declared : variant ∈ env.variants definition)
    (complete : fields = (env.payloadFields variant).map PayloadField.field)
    (arity : values.length = fields.length)
    (typed : ∀ field value ty, (field, value) ∈ fields.zip values →
      env.fieldType field substitution = some ty → HasType value ty) :
    HasType (.union variant fields values) (.union definition substitution)
  | tagless {definition substitution fields values} (untagged : env.isTaglessUnion definition = true)
    (declared : env.variants definition ≠ [])
    (complete : ∀ variant, env.unionOf variant = definition → ∀ payload ∈ env.payloadFields variant,
      payload.field ∈ fields)
    (arity : values.length = fields.length)
    (typed : ∀ field value ty, (field, value) ∈ fields.zip values →
      env.fieldType field substitution = some ty → HasType value ty) :
    HasType (.tagless fields values) (.union definition substitution)
  | tuple {values elements} (arity : values.length = elements.length)
    (typed : ∀ (index : Nat) value ty, values[index]? = some value → elements[index]? = some ty →
      HasType value ty) :
    HasType (.tuple values) (.tuple elements)
  | array {values element length} (size : ∀ known, length = some known → values.length = known)
    (typed : ∀ value ∈ values, HasType value element) :
    HasType (.array values) (.array element length)
  | slice {values element} (typed : ∀ value ∈ values, HasType value element) :
    HasType (.array values) (.slice element)
  | absent {target} : HasType .absent (.nullable target)
  | present {value target} (typed : HasType value target) : HasType (.present value) (.nullable target)
  | borrowed {value target} (typed : HasType value target) : HasType (.borrowed value) (.borrow target)
  | owned {value target} (typed : HasType value target) :
    HasType (.owned value) (.ownedIndirection target)
  | other (value : Value) : HasType value .other

/-- Behind the borrows of a value is a value of the type behind the borrows. -/
theorem HasType.unborrow {env : Environment} {value : Value} {ty : Ty} (typed : HasType env value ty)
    (known : ty.unborrowed ≠ .other) : HasType env value.unborrowed ty.unborrowed := by
  induction typed with
  | borrowed _ ih => exact ih known
  | other => exact absurd rfl known
  | boolean b role => exact .boolean b role
  | scalar kind role plain => exact .scalar kind role plain
  | product role complete arity typed => exact .product role complete arity typed
  | union tagged declared complete arity typed => exact .union tagged declared complete arity typed
  | tagless untagged declared complete arity typed => exact .tagless untagged declared complete arity typed
  | tuple arity typed => exact .tuple arity typed
  | array size typed => exact .array size typed
  | slice typed => exact .slice typed
  | absent => exact .absent
  | present typed => exact .present typed
  | owned typed => exact .owned typed

end Typing

/-! ## 3. Constants -/

/-- A typed constant. The types are only compared, by identity. -/
inductive Constant where
  | scalar (ty : Nat) (kind : ConstantValueKind)
  | absent (ty : Nat)
  | present (ty : Nat) (value : Constant)
  | tuple (ty : Nat) (values : List Constant)
  | array (ty : Nat) (values : List Constant)
  | product (ty : Nat) (fields : List FieldId) (values : List Constant)
  | union (ty : Nat) (variant : VariantId) (fields : List FieldId) (values : List Constant)

/-- The last arm of `constant_kinds_equal`: the equality of the language. -/
def scalarsEqual (left right : ConstantValueKind) : Bool :=
  left != .error && right != .error && Guarantee.foldBinary .equal left right == some true

mutual
/-- `constant_values_equal` -/
def constantValuesEqual : Constant → Constant → Bool
  | .scalar ty left, .scalar ty' right => ty == ty' && scalarsEqual left right
  | .absent ty, .absent ty' => ty == ty'
  | .present ty left, .present ty' right => ty == ty' && constantValuesEqual left right
  | .tuple ty left, .tuple ty' right => ty == ty' && constantSequencesEqual left right
  | .array ty left, .array ty' right => ty == ty' && constantSequencesEqual left right
  | .product ty fields left, .product ty' fields' right =>
    ty == ty' && fields == fields' && constantSequencesEqual left right
  | .union ty variant fields left, .union ty' variant' fields' right =>
    ty == ty' && variant == variant' && fields == fields' && constantSequencesEqual left right
  | _, _ => false
termination_by structural constant => constant
/-- `constant_sequences_equal` -/
def constantSequencesEqual : List Constant → List Constant → Bool
  | [], [] => true
  | left :: lefts, right :: rights => constantValuesEqual left right && constantSequencesEqual lefts rights
  | _, _ => false
termination_by structural constants => constants
end

mutual
/-- Whether a value equals a constant: the test of a literal or a constant pattern. -/
def Constant.equals : Constant → Value → Bool
  | .scalar _ kind, .scalar kind' => scalarsEqual kind kind'
  | .absent _, .absent => true
  | .present _ constant, .present value => constant.equals value
  | .tuple _ constants, .tuple values => equalsAll constants values
  | .array _ constants, .array values => equalsAll constants values
  | .product _ fields constants, .product fields' values => fields == fields' && equalsAll constants values
  | .union _ variant fields constants, .union variant' fields' values =>
    variant == variant' && fields == fields' && equalsAll constants values
  | _, _ => false
termination_by structural constant => constant
def Constant.equalsAll : List Constant → List Value → Bool
  | [], [] => true
  | constant :: constants, value :: values => constant.equals value && equalsAll constants values
  | _, _ => false
termination_by structural constants => constants
end

theorem scalarsEqual_iff {left right : ConstantValueKind} : scalarsEqual left right ↔
    left ≠ .error ∧ right ≠ .error ∧ Lib.Unordered.Same left.rank right.rank := by
  simp only [scalarsEqual, and_eq_true, bne_iff_ne, beq_iff_eq, and_assoc]
  refine and_congr_right fun _ => and_congr_right fun _ => ⟨fun folded => ?_, Guarantee.foldBinary_of_same⟩
  exact (Guarantee.foldBinary_holds folded).mp rfl

/-- Equality of scalars is transitive; it is not reflexive on a NaN. -/
theorem scalarsEqual_trans {a b c : ConstantValueKind} (first : scalarsEqual a b) (second : scalarsEqual b c) :
    scalarsEqual a c := by
  rw [scalarsEqual_iff] at *
  obtain ⟨left, -, place, ha, hb⟩ := first
  obtain ⟨-, right, place', hb', hc⟩ := second
  obtain rfl : place = place' := Option.some.inj (hb.symm.trans hb')
  exact ⟨left, right, place, ha, hc⟩

mutual
theorem equals_of_constantValuesEqual : ∀ (constant other : Constant) (value : Value),
    constantValuesEqual constant other → other.equals value → constant.equals value
  | .scalar _ _, .scalar _ _, .scalar _, same, equal => by
    simp only [constantValuesEqual, and_eq_true] at same
    exact scalarsEqual_trans same.2 equal
  | .absent _, .absent _, .absent, _, _ => rfl
  | .present _ constant, .present _ other, .present value, same, equal => by
    simp only [constantValuesEqual, and_eq_true] at same
    exact equals_of_constantValuesEqual constant other value same.2 equal
  | .tuple _ constants, .tuple _ others, .tuple values, same, equal => by
    simp only [constantValuesEqual, and_eq_true] at same
    exact equalsAll_of_constantSequencesEqual constants others values same.2 equal
  | .array _ constants, .array _ others, .array values, same, equal => by
    simp only [constantValuesEqual, and_eq_true] at same
    exact equalsAll_of_constantSequencesEqual constants others values same.2 equal
  | .product _ _ constants, .product _ _ others, .product _ values, same, equal => by
    simp only [constantValuesEqual, Constant.equals, and_eq_true, beq_iff_eq] at same equal ⊢
    exact ⟨same.1.2.trans equal.1, equalsAll_of_constantSequencesEqual constants others values same.2 equal.2⟩
  | .union _ _ _ constants, .union _ _ _ others, .union _ _ values, same, equal => by
    simp only [constantValuesEqual, Constant.equals, and_eq_true, beq_iff_eq] at same equal ⊢
    exact ⟨⟨same.1.1.2.trans equal.1.1, same.1.2.trans equal.1.2⟩,
      equalsAll_of_constantSequencesEqual constants others values same.2 equal.2⟩
theorem equalsAll_of_constantSequencesEqual : ∀ (constants others : List Constant) (values : List Value),
    constantSequencesEqual constants others → Constant.equalsAll others values → Constant.equalsAll constants values
  | [], [], [], _, _ => rfl
  | constant :: constants, other :: others, value :: values, same, equal => by
    simp only [constantSequencesEqual, Constant.equalsAll, and_eq_true] at same equal ⊢
    exact ⟨equals_of_constantValuesEqual constant other value same.1 equal.1,
      equalsAll_of_constantSequencesEqual constants others values same.2 equal.2⟩
end

/-! ## 4. Patterns -/

/-- What a constant pattern was evaluated to: a value, or a term that is not closed yet. -/
inductive ConstantEvidence where
  | value (constant : Constant)
  | term (term : Nat)

inductive EntryKind where
  | pattern
  | binding
  | remaining
  | recovered
  deriving DecidableEq

/-- One entry of a product, an array or a variant payload. The patterns of the entries that have one
are the children of the pattern, in the same order. -/
structure PatternEntry where
  name : Option Name
  kind : EntryKind

def PatternEntry.isRemaining (entry : PatternEntry) : Bool := entry.kind == .remaining

/-- What every pattern has: its identity, and whether the checker recovers at this node for a reason of
its own. -/
structure Header where
  id : PatternId
  isRecovered : Bool

/-- A pattern under its effective kind: a name that stands for a union variant is a variant. -/
inductive Pattern where
  | binding (header : Header)
  | discard (header : Header)
  | remaining (header : Header)
  | error (header : Header)
  /-- The value of the literal at the type of the subject, where it has one. -/
  | literal (header : Header) (value : Option Constant)
  | path (header : Header) (evidence : Option ConstantEvidence)
  | nullableAbsent (header : Header)
  | nullablePresent (header : Header) (child : Pattern)
  | box (header : Header) (child : Pattern)
  | grouped (header : Header) (child : Pattern)
  | variant (header : Header) (target : Option VariantId) (entries : List PatternEntry) (children : List Pattern)
  | product (header : Header) (entries : List PatternEntry) (children : List Pattern)
  | array (header : Header) (entries : List PatternEntry) (children : List Pattern)
  | tuple (header : Header) (children : List Pattern)
  | alternative (header : Header) (children : List Pattern)

namespace Pattern

def header : Pattern → Header
  | .binding header | .discard header | .remaining header | .error header
  | .literal header _ | .path header _ | .nullableAbsent header | .nullablePresent header _
  | .box header _ | .grouped header _ | .variant header _ _ _ | .product header _ _
  | .array header _ _ | .tuple header _ | .alternative header _ => header

def id (pattern : Pattern) : PatternId := pattern.header.id

def entries : Pattern → List PatternEntry
  | .variant _ _ entries _ | .product _ entries _ | .array _ entries _ => entries
  | _ => []

def children : Pattern → List Pattern
  | .nullablePresent _ child | .box _ child | .grouped _ child => [child]
  | .variant _ _ _ children | .product _ _ children | .array _ _ children
  | .tuple _ children | .alternative _ children => children
  | _ => []

end Pattern

/-- Where the subject of a child is found in the subject of its parent. -/
inductive Projection where
  | nullableValue
  | ownedTarget
  | tupleElement (index : Nat)
  | elementFromStart (index : Nat)
  | elementFromEnd (index : Nat)
  | productField (field : FieldId)
  | activeUnionPayloadField (variant : VariantId) (field : FieldId)

/-- The part of a value that a projection selects, none when there is no such part. -/
def Projection.select : Projection → Value → Option Value
  | .nullableValue, .present value => some value
  | .ownedTarget, .owned value => some value
  | .tupleElement index, .tuple values => values[index]?
  | .elementFromStart index, .array values => values[index]?
  | .elementFromEnd index, .array values => values.reverse[index]?
  | .productField field, .product fields values => (fields.zip values).lookup field
  | .activeUnionPayloadField variant field, .union active fields values =>
    if active = variant then (fields.zip values).lookup field else none
  | .activeUnionPayloadField _ field, .tagless fields values => (fields.zip values).lookup field
  | _, _ => none

end Bray.Match
