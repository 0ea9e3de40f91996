/-
  File:      Bray/Overlap/Unifier.lean
  Subject:   THE UNIFIER of implementation headers (overlap/semantic/unifier.rs, overlap/implementation.rs).

  Every function of the unifier answers `false`, or is as true as the comparisons it then makes, one
  after the other. So a call is modelled by the comparisons it asks for, in order (`none` is `false`),
  and a run by the comparisons still to be made: the calls of the source that have not returned.
-/
import Bray.Overlap.Value

namespace Bray.Overlap

open Bray.Lib

/-- Two values to be compared; `same` says that the identities that go with them (a generic parameter,
  the name, position and mode of a callable's parameter) are equal. -/
structure Comparison where
  same : Bool
  left : Value
  right : Value
  deriving DecidableEq

structure SemanticUnifier where
  parameters : List Parameter
  /-- `type_bindings` and `constant_bindings`: the key says which -/
  bindings : List (Parameter × Value)
  deriving DecidableEq

namespace SemanticUnifier

variable (u : SemanticUnifier)

def new (left right : List Parameter) : SemanticUnifier := ⟨left ++ right, []⟩

def bound (parameter : Parameter) : Option Value := u.bindings.lookup parameter

/-! ## 1. Parameters -/

def headerParameter (kind : Kind) : Value → Option Parameter
  | .param p => if p.kind = kind ∧ p ∈ u.parameters then some p else none
  | _ => none

def headerTypeParameter (ty : Value) : Option Parameter := u.headerParameter .type ty

def headerConstParameter (term : Value) : Option Parameter := u.headerParameter .constant term

/-- `insert` into a map of bindings -/
def insert (parameter : Parameter) (value : Value) : SemanticUnifier :=
  { u with bindings := (parameter, value) :: u.bindings }

/-- A parameter is bound to a value, unless an occurrence check finds it there. -/
def bindParameter (contains : Value → Parameter → Bool) (parameter : Parameter) (value : Value) :
  Option SemanticUnifier :=
  if contains value parameter then none else some (u.insert parameter value)

def bindTypeParameter (parameter : Parameter) (value : Value) : Option SemanticUnifier :=
  u.bindParameter typeContainsParameter parameter value

def bindConstParameter (parameter : Parameter) (value : Value) : Option SemanticUnifier :=
  u.bindParameter constantContainsParameter parameter value

theorem bound_insert (p : Parameter) (v : Value) : (u.insert p v).bound = Term.bind u.bound p v := by
  funext q
  rw [bound, insert, List.lookup_cons, Term.bind]
  by_cases h : q = p
  · rw [if_pos h, h]
    simp
  · rw [if_neg h, beq_false_of_ne h]
    rfl

variable {u}

theorem headerParameter_some {kind : Kind} {v : Value} {p : Parameter}
    (h : u.headerParameter kind v = some p) : v = .param p ∧ p ∈ u.parameters := by
  unfold headerParameter at h
  split at h
  · split at h
    · next hp =>
      cases h
      exact ⟨rfl, hp.2⟩
    · cases h
  · cases h

theorem headerParameter_none {kind : Kind} {v : Value} (hkind : Value.kind v = kind)
    (h : u.headerParameter kind v = none) : ∀ p, v = .param p → p ∉ u.parameters := by
  intro p hp hmem
  subst hp
  rw [headerParameter, if_pos ⟨hkind, hmem⟩] at h
  cases h

variable (u)

/-! ## 2. Comparisons -/

/-- Lists of one length are compared element by element. -/
def listsMayOverlap (left right : List Value) : Option (List Comparison) :=
  if left.length = right.length then some (List.zipWith (Comparison.mk true) left right) else none

/-- `bindings` of two substitutions: each parameter is compared before its arguments are. -/
def substitutionsMayOverlap : Value → Value → Option (List Comparison)
  | .node (.substitution owner parameters) args, .node (.substitution owner' parameters') args' =>
    if owner ≠ owner' ∨ args.length ≠ args'.length then none
    else some (List.zipWith (fun (same : Bool) (pair : Value × Value) => ⟨same, pair.1, pair.2⟩)
      (List.zipWith (fun p q => decide (p = q)) parameters parameters') (args.zip args'))
  | _, _ => none

def traitApplicationsMayOverlap : Value → Value → Option (List Comparison)
  | .node (.application definition) args, .node (.application definition') args' =>
    if definition ≠ definition' then none else listsMayOverlap args args'
  | _, _ => none

/-- The dependency contracts of a callable, the argument after its parameters' types and its result. -/
def contractsOf (data : CallableTypeData) (args : List Value) : Option Value :=
  args[data.parameters.length + 1]?

def callablesMayOverlap (left : CallableTypeData) (args : List Value) (right : CallableTypeData)
  (args' : List Value) : Option (List Comparison) :=
  if left.constness ≠ right.constness ∨ left.execution ≠ right.execution ∨ left.trust ≠ right.trust ∨
    left.abi ≠ right.abi ∨ contractsOf left args ≠ contractsOf right args' ∨
    left.variadic ≠ right.variadic ∨ left.parameters.length ≠ right.parameters.length then none
  else some (List.zipWith (fun (same : Bool) (pair : Value × Value) => ⟨same, pair.1, pair.2⟩)
    -- the result is compared last, without anything that goes with it
    (List.zipWith (fun p q => decide (p = q)) left.parameters right.parameters ++ [true])
    (args.zip args'))

/-- The match of `types_may_overlap` -/
def typeDataMayOverlap : Value → Value → Option (List Comparison)
  | .node (.named definition) args, .node (.named definition') args' =>
    if definition ≠ definition' then none else listsMayOverlap args args'
  | .node (.typeValuedMemberProjection member) args, .node (.typeValuedMemberProjection member') args' =>
    if member ≠ member' then none else listsMayOverlap args args'
  | .node .tuple args, .node .tuple args' => listsMayOverlap args args'
  | .node .array args, .node .array args' => listsMayOverlap args args'
  | .node .slice args, .node .slice args' => listsMayOverlap args args'
  | .node .generator args, .node .generator args' => listsMayOverlap args args'
  | .node .nullable args, .node .nullable args' => listsMayOverlap args args'
  | .node (.borrow kind) args, .node (.borrow kind') args' =>
    if kind ≠ kind' then none else listsMayOverlap args args'
  | .node .traitView args, .node .traitView args' => listsMayOverlap args args'
  | .node .ownedIndirection args, .node .ownedIndirection args' => listsMayOverlap args args'
  | .node (.callable data) args, .node (.callable data') args' => callablesMayOverlap data args data' args'
  -- among them an error, a flexible array and a parameter of neither header
  | _, _ => none

/-- The match of `constants_may_overlap` -/
def constantsAgree : Value → Value → Bool
  | .node (.value kind) args, .node (.value kind') args' => decide (kind = kind') && decide (args = args')
  | .atom (.integerLiteral ty value), .atom (.integerLiteral ty' value') =>
    decide (ty = ty') && decide (value = value')
  | .param p, .param q => decide (p = q)
  | _, _ => true

/-- Constants ask for nothing more. -/
def constantDataMayOverlap (left right : Value) : Option (List Comparison) :=
  if constantsAgree left right then some [] else none

/-- What a call leaves: the unifier, and the comparisons it then makes. -/
abbrev Reply := Option (SemanticUnifier × List Comparison)

/-- `types_may_overlap` and `constants_may_overlap`: equal values, a parameter of the headers on the left,
  one on the right, and otherwise what the values are made of. -/
def valuesMayOverlap (header : Value → Option Parameter)
  (bind : Parameter → Value → Option SemanticUnifier) (data : Value → Value → Option (List Comparison))
  (left right : Value) : Reply :=
  if left = right then some (u, [])
  else match header left with
    | some parameter => match u.bound parameter with
      | some value => some (u, [⟨true, value, right⟩])
      | none => (bind parameter right).map (·, [])
    | none => match header right with
      | some parameter => match u.bound parameter with
        | some value => some (u, [⟨true, left, value⟩])
        | none => (bind parameter left).map (·, [])
      | none => (data left right).map (u, ·)

def typesMayOverlap (left right : Value) : Reply :=
  u.valuesMayOverlap u.headerTypeParameter u.bindTypeParameter typeDataMayOverlap left right

def constantsMayOverlap (left right : Value) : Reply :=
  u.valuesMayOverlap u.headerConstParameter u.bindConstParameter constantDataMayOverlap left right

/-- `arguments_may_overlap`, and the calls the source makes on values whose kind it knows. -/
def compare (c : Comparison) : Reply :=
  if c.same then
    match Value.kind c.left, Value.kind c.right with
    | .type, .type => u.typesMayOverlap c.left c.right
    | .constant, .constant => u.constantsMayOverlap c.left c.right
    | .substitution, .substitution => (substitutionsMayOverlap c.left c.right).map (u, ·)
    | .application, .application => (traitApplicationsMayOverlap c.left c.right).map (u, ·)
    | _, _ => none
  else none

end SemanticUnifier

/-! ## 3. Runs -/

/-- Where a run stands: comparisons are still to be made, or it has answered. -/
inductive Progress where
  | pending (u : SemanticUnifier) (comparisons : List Comparison)
  | answered (u : SemanticUnifier) (answer : Bool)
  deriving DecidableEq

namespace Progress

def unifier : Progress → SemanticUnifier
  | .pending u _ => u
  | .answered u _ => u

/-- One call. -/
def step : Progress → Progress
  | .pending u [] => .answered u true
  | .pending u (c :: rest) => match u.compare c with
    | none => .answered u false
    | some (u', asked) => .pending u' (asked ++ rest)
  | .answered u answer => .answered u answer

/-- So many calls. -/
def run : Nat → Progress → Progress
  | 0, s => s
  | n + 1, s => (run n s).step

end Progress

structure ImplementationHeader where
  parameters : List Parameter
  subject : Value
  traitApplication : Value

/-- Where `implementation_headers_overlap` begins. -/
def headersStart (left right : ImplementationHeader) : Progress :=
  .pending (.new left.parameters right.parameters)
    [⟨true, left.subject, right.subject⟩, ⟨true, left.traitApplication, right.traitApplication⟩]

/-- What `implementation_headers_overlap` has answered after so many calls, if it has. -/
def implementationHeadersOverlap (left right : ImplementationHeader) (calls : Nat) : Option Bool :=
  match (headersStart left right).run calls with
  | .pending _ _ => none
  | .answered _ answer => some answer

end Bray.Overlap
