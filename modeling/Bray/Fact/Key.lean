/-
  File:      Bray/Fact/Key.lean
  Subject:   FACT KEYS, INPUTS AND DEPENDENCY RECORDS of the compilation's query runtime
    (`fact/key.rs`, `fact/fingerprint.rs`, the state of `fact/runtime.rs`).

  The payload of a key (a bound unit, a symbol, a source) is compared and hashed by the runtime
  and never taken apart: it is a number here. A fingerprint is its 32 bytes.

  The ordered and the hashed maps of the source are association lists with distinct keys: what is
  proved of them holds for every order of the entries, the source's own among them.
-/
import Mathlib.Data.List.AList

namespace Bray.Fact

/-- The identity of a payload. -/
abbrev Payload := Nat

/-- The identity of one compilation fact. -/
inductive CompilationFactKey where
  | targetValidity (key : Payload)
  | moduleContributionGate (key : Payload)
  | callableTypeDirectives (key : Payload)
  | boundUnit (key : Payload)
  | checkDiagnostics
  | declaredUnits
  | constantInstance (key : Payload)
  | constantCall (key : Payload)
  | constantCallCycle (key : Payload)
  | checkedControlFlow (key : Payload)
  | checkedPatterns (key : Payload)
  | storagePlan (key : Payload)
  | memoryOperations (key : Payload)
  | selectedBodyBehavior (key : Payload)
  | preparedBodyAnalysis (key : Payload)
  | resultDependencyComponent (key : Payload)
  | bodySemantics (key : Payload)
  | executionCandidates (key : Payload)
  | constantBodyTemplate (key : Payload)
  | unwindCandidate (key : Payload)
  | unwindBehavior (key : Payload)
  | certifiedExecution (key : Payload)
  | cleanupCompletion (key : Payload)
  | checkedBodyBehavior (key : Payload)
  | loweredUnit (key : Payload)
  | sourceOutputUnit (key : Payload)
  | codegenArtifact (key : Payload)
  | optimizedMir (key : Payload)
  | generatedLifecycle (key : Payload) (unit : Payload)
  | destructionBody (key : Payload)
  | nativeProduct (key : Payload)
  | declaredValueTypeTemplates (key : Payload)
  | expressionSemantics (key : Payload)
  | provisionalExpressionSemantics (key : Payload)
  | symbolicConstantTerm (key : Payload)
  | declarationChunk (key : Payload)
  | declarationTable
  | productSourceGraph
  | productSemantics
  | testDiscovery (key : Payload)
  | discoverySymbolGraph
  | dependencyInterface (key : Payload)
  | dependencyImplementation (key : Payload)
  | importedDiagnostics
  | implementationHeaderIndex
  | implementationCandidateSet (key : Payload)
  | traitImplementationConformance (key : Payload)
  | genericConstraintSatisfaction (key : Payload)
  | implementationSelection (key : Payload)
  | iterationSource (key : Payload)
  | importedSemanticGraph (key : Payload)
  | importedSemanticRecord (key : Payload)
  | importedConstantCallableBody (key : Payload)
  | importedExecutableTemplate (key : Payload)
  | implementationParticipation (key : Payload)
  | implementationCoherence
  | callableOverloadValidation
  | foreignCallableContract (key : Payload)
  | foreignStaticContract (key : Payload)
  | foreignCallableValidation
  | typeAssociatedSurface (key : Payload)
  | declaredTypeRepresentation (key : Payload)
  | typeAssociatedImplementationIndex
  | importedSymbolSkeleton
  | importedStandardLibraryImplementations
  | packageInterfaceExportBundle
  | semanticDiagnostics
  | executionGuaranteeDiagnostics
  | sourceUnitSyntax (key : Payload)
  | sourceReferenceIndex (key : Payload)
  | symbolGraph
  | symbol (key : Payload)
  | syntaxTree
  deriving DecidableEq

/-- The key means the same in a snapshot with another identity namespace. -/
def CompilationFactKey.hasStableSnapshotIdentity : CompilationFactKey → Bool
  | .targetValidity _ | .moduleContributionGate _ | .callableTypeDirectives _
  | .constantInstance _ | .constantCall _ | .constantCallCycle _
  | .implementationCandidateSet _ | .traitImplementationConformance _
  | .genericConstraintSatisfaction _ | .implementationSelection _
  | .implementationParticipation _ | .foreignCallableContract _ | .foreignStaticContract _
  | .typeAssociatedSurface _ | .declaredTypeRepresentation _ | .symbol _ => false
  | _ => true

/-- The identity of one input of a compilation. -/
inductive CompilationInputKey where
  | packageIdentity
  | packageSourceAuthority
  | sourceSet
  | source (source : Payload)
  | sourceDiagnostics
  | productKind
  | selectedTarget
  | nativeLinkInputs
  | semanticRecursionLimit
  | semanticPairwiseLimit
  | dependencySet
  | dependencyInterface (imported : Payload)
  | dependencyImplementation (imported : Payload)
  | platformServices
  | runtimeRoles
  | packageInterfaceExport
  | codegenConfiguration
  | standardLibrary
  | nativeImplementations
  deriving DecidableEq

def CompilationInputKey.affectsIdentityNamespace : CompilationInputKey → Bool
  | .packageIdentity | .sourceSet | .source _ | .dependencySet | .dependencyInterface _
  | .dependencyImplementation _ | .standardLibrary => true
  | _ => false

abbrev FactFingerprint := BitVec 256

/-- The inputs of one snapshot. -/
abbrev CompilationInputs := AList fun _ : CompilationInputKey => FactFingerprint

/-- The inputs that define the identity namespace are the same in both snapshots. The source
  compares two sequences in key order, so equality there is equality as sets of entries. -/
def CompilationInputs.hasSameIdentityNamespace (a b : CompilationInputs) : Bool :=
  (a.entries.filter fun x => x.1.affectsIdentityNamespace).isPerm
    (b.entries.filter fun x => x.1.affectsIdentityNamespace)

/-- What a published fact was computed from. -/
structure FactDependencyRecord where
  fingerprint : FactFingerprint
  facts : List (CompilationFactKey × FactFingerprint)
  inputs : List (CompilationInputKey × FactFingerprint)

abbrev FactTaskIdentity := Nat

/-- A task waits for a fact another task computes. -/
structure WaitEdge where
  fact : CompilationFactKey
  owner : FactTaskIdentity

/-- What the runtime's lock protects. -/
structure RuntimeState where
  owners : AList fun _ : CompilationFactKey => FactTaskIdentity
  waiting : AList fun _ : FactTaskIdentity => AList fun _ : WaitEdge => Nat
  records : AList fun _ : CompilationFactKey => FactDependencyRecord

def RuntimeState.initial : RuntimeState := ⟨∅, ∅, ∅⟩

/-- The runtime of one snapshot. -/
structure FactRuntime where
  nextTask : Nat
  state : RuntimeState
  inputs : CompilationInputs

end Bray.Fact
