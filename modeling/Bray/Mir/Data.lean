/-
  File:      Bray/Mir/Data.lean
  Subject:   MIR UNITS (bray-ir): identities, operands and places, calls, storages and frames.

  A unit owns four tables: blocks, operations, storages and values. An identity names its unit and a
  slot of 32 bits in one of the tables. Types, constants and symbols are interned by other crates and
  only compared here, so they are numbers.
-/
import Mathlib

namespace Bray.Mir

/-- `bray_symbols::TypeId` -/
abbrev TypeId := Nat

/-- The identity of a symbol, a constant or a key of another crate that is only compared. -/
abbrev Symbol := Nat

/-! ## 1. Identities -/

/-- `MirUnitId` -/
structure UnitId where
  raw : UInt32
  deriving DecidableEq

/-- `MirBlockId` -/
structure BlockId where
  unit : UnitId
  slot : UInt32
  deriving DecidableEq

/-- `MirOperationId` -/
structure OperationId where
  unit : UnitId
  slot : UInt32
  deriving DecidableEq

/-- `MirStorageId` -/
structure StorageId where
  unit : UnitId
  slot : UInt32
  deriving DecidableEq

/-- `MirValueId` -/
structure ValueId where
  unit : UnitId
  slot : UInt32
  deriving DecidableEq

/-- `MirFrameStateId` -/
structure FrameStateId where
  raw : UInt32
  deriving DecidableEq

/-- `compact_slot`: the slot of a table index, where it fits one. -/
def compactSlot (index : Nat) : Option UInt32 :=
  if index < 2 ^ 32 then some (UInt32.ofNat index) else none

theorem compactSlot_eq_some {index : Nat} {slot : UInt32} (h : compactSlot index = some slot) :
    slot.toNat = index := by
  unfold compactSlot at h
  split at h
  · rename_i hlt
    cases h
    exact UInt32.toNat_ofNat_of_lt' hlt
  · cases h

/-! ## 2. Operands and places -/

/-- `MirImmediateValue` -/
inductive ImmediateValue where
  | boolean (value : Bool)
  | unit
  | nullableAbsent
  | emptyPanicReport

/-- `MirFieldReference` -/
inductive FieldReference where
  | struct (field : Symbol)
  | unionPayload (field : Symbol)

mutual

/-- `MirOperand` -/
inductive Operand where
  | value (id : ValueId)
  | constant (value : Symbol) (ty : TypeId)
  | constantTerm (term : Symbol) (ty : TypeId)
  | immediate (value : ImmediateValue) (ty : TypeId)
  | copy (place : Place)
  | move (place : Place)

/-- `MirPlace` -/
inductive Place where
  | mk (storage : StorageId) (projections : List Projection) (ty : TypeId)

/-- `MirProjection` -/
inductive Projection where
  | mk (kind : ProjectionKind) (sourceType resultType : TypeId)

/-- `MirProjectionKind` -/
inductive ProjectionKind where
  | dereference
  | field (field : FieldReference)
  | tupleField (ordinal : UInt32)
  | elementFromStart (ordinal : UInt32)
  | elementFromEnd (ordinal : UInt32)
  | index (operand : Operand)
  | slice (start stop : Option Operand)
  | variant (variant : Symbol)
  | activeUnionPayloadField (variant field : Symbol)
  | activeUnionPayloadElement (variant ordinal : Symbol)
  | nullableValue
  | ownedStorage

end

namespace Place

def storage : Place → StorageId
  | .mk storage _ _ => storage

def projections : Place → List Projection
  | .mk _ projections _ => projections

def ty : Place → TypeId
  | .mk _ _ ty => ty

end Place

/-! ## 3. Storages and values -/

/-- `MirStorageKind` -/
inductive StorageKind where
  | parameter (ordinal : UInt32)
  | borrowedParameter (ordinal : UInt32)
  | local
  | temporary
  | broadcastLocal
  | frameCompletion
  | return
  | inactiveFrame
  | currentFrame
  | currentTask
  | childTask
  | static (selection : Symbol)
  | nativeStatic (selection : Symbol)
  deriving DecidableEq

/-- `matches!(_, MirStorageKind::Static(_))` -/
def StorageKind.isStatic : StorageKind → Bool
  | .static _ => true
  | _ => false

/-- `MirStorage` -/
structure Storage where
  kind : StorageKind
  ty : TypeId

/-- `MirValueOrigin` -/
inductive ValueOrigin where
  | blockParameter (block : BlockId)
  | operation (operation : OperationId)
  deriving DecidableEq

/-- `MirValue` -/
structure Value where
  ty : TypeId
  origin : ValueOrigin

/-! ## 4. The runtime interface -/

/-- `RuntimeAbiVersion` -/
structure RuntimeAbiVersion where
  major : Nat
  minor : Nat
  deriving DecidableEq

/-- `RuntimeAbiRole`: the roles that the validation of a unit names, and every further role of the
catalog by its position there. -/
inductive RuntimeAbiRole where
  | cleanupIncidentReporting
  | cleanupIncidentTransfer
  | currentRunCancellationObservation
  | entryFailureReporting
  | executionShutdown
  | frameResume
  | inactiveFrameBroadcast
  | inactiveFrameDestruction
  | inactiveFrameResolution
  | outgoingAdmission
  | outgoingDischarge
  | panicPropagation
  | panicReporting
  | rootCompletionResolution
  | rootExecution
  | rootTerminalObservation
  | runtimeInitialization
  | structuredShutdown
  | suspensionRegistration
  | synchronousRootExecution
  | taskAllocation
  | taskCancellationRequest
  | taskObservationCreation
  | taskResolution
  | taskStart
  | terminalPublication
  | testEntrySelection
  | wake
  | further (position : Nat)
  deriving DecidableEq

/-- `MirRuntimeReference` -/
structure RuntimeReference where
  role : RuntimeAbiRole
  abiVersion : RuntimeAbiVersion

/-- `RootExecution` -/
inductive RootExecution where
  | synchronous
  | asynchronous (frame : Symbol)
  deriving DecidableEq

/-- `ExecutableEntryResult` -/
inductive ExecutableEntryResult where
  | unit
  | i32
  | fallible (ty error : TypeId) (successVariant : Symbol)
  deriving DecidableEq

/-- `ExecutableHostEntry` -/
structure ExecutableHostEntry where
  root : RootExecution
  result : ExecutableEntryResult
  deriving DecidableEq

/-- `ExecutableHostContract`: its entries, and of its requirements the version and the roles. -/
structure ExecutableHostContract where
  entries : List ExecutableHostEntry
  abiVersion : RuntimeAbiVersion
  roles : List RuntimeAbiRole
  deriving DecidableEq

namespace ExecutableHostContract

def requiresRole (host : ExecutableHostContract) (role : RuntimeAbiRole) : Bool :=
  host.roles.contains role

def entry (host : ExecutableHostContract) (entry : UInt32) : Option ExecutableHostEntry :=
  host.entries[entry.toNat]?

end ExecutableHostContract

/-! ## 5. Calls -/

inductive CallableAbi where
  | bray | c | system

/-- `CallableInvocation` -/
inductive CallableInvocation where
  | bray | native
  deriving DecidableEq

/-- `MirCallableReference`: the symbol of the callable its instance defines, and the calling
convention. -/
structure CallableReference where
  callableSymbol : Symbol
  abi : CallableAbi

/-- `BoundCallResult` with its `BoundFutureConstruction`. -/
inductive BoundCallResult where
  | immediate (ty : TypeId)
  | lazyFuture (completionType futureType : TypeId)

/-- `BoundCallResult::ty` -/
def BoundCallResult.ty : BoundCallResult → TypeId
  | .immediate ty => ty
  | .lazyFuture _ futureType => futureType

/-- `matches!(_, BoundCallResult::Immediate(_))` -/
def BoundCallResult.isImmediate : BoundCallResult → Bool
  | .immediate _ => true
  | .lazyFuture _ _ => false

/-- `ConstructionTarget` by the declaration it selects. -/
inductive ConstructionTarget where
  | struct (symbol : Symbol)
  | unionVariant (symbol : Symbol)
  | typeForm (callable requirement witness : Symbol)

/-- `DefaultValueProvider` -/
inductive DefaultValueProvider where
  | structField (provider : Symbol)
  | unionPayload (provider : Symbol)
  | callableParameter (provider : Symbol)

/-- `ConstructionInputId` -/
inductive ConstructionInputId where
  | structField (symbol : Symbol)
  | unionPayloadField (symbol : Symbol)
  | callableParameter (symbol : Symbol)
  deriving DecidableEq

namespace ConstructionTarget

def acceptsDefault : ConstructionTarget → DefaultValueProvider → Bool
  | .struct _, .structField _ => true
  | .unionVariant _, .unionPayload _ => true
  | .typeForm _ _ _, .callableParameter _ => true
  | _, _ => false

def acceptsInput : ConstructionTarget → ConstructionInputId → Bool
  | .struct _, .structField _ => true
  | .unionVariant _, .unionPayloadField _ => true
  | .typeForm _ _ _, .callableParameter _ => true
  | _, _ => false

end ConstructionTarget

/-- `MirCleanupPhase` -/
inductive CleanupPhase where
  | taskCancellation
  | lifecycleResolution
  deriving DecidableEq

/-- `MirDestructionDisposition` -/
inductive DestructionDisposition where
  | dynamic | ordinary | abandoned
  deriving DecidableEq

/-- `MirGeneratedLifecycleRole` -/
inductive GeneratedLifecycleRole where
  | quiesce
  | staticFinalize
  | destroy (disposition : DestructionDisposition)
  | releaseBuffer
  | cleanup (phase : CleanupPhase)
  deriving DecidableEq

/-- `MirDefaultOwner` -/
inductive DefaultOwner where
  | callable (callable : CallableReference)
  | type (target : ConstructionTarget) (ty : TypeId)

/-- `MirCallTarget` -/
inductive CallTarget where
  | direct (reference : CallableReference)
  | lifecycle (role : GeneratedLifecycleRole) (ty : TypeId)
  | defaultValue (owner : DefaultOwner) (provider : DefaultValueProvider)
  | predicate (reference : Symbol)
  | runtime (reference : RuntimeReference)
  | indirect (callee : Operand) (abi : CallableAbi)

/-- `MirCallArgument` -/
inductive CallArgument where
  | receiver (parameter : Symbol) (value : Operand)
  | explicit (parameter : Option Symbol) (ordinal : UInt32) (value : Operand)

/-- `MirCallArgument::value` -/
def CallArgument.value : CallArgument → Operand
  | .receiver _ value => value
  | .explicit _ _ value => value

/-- `ExecutionProperty` -/
inductive ExecutionProperty where
  | pure | total
  deriving DecidableEq

/-- `CallablePhaseBehaviors`: what the invocation may do, and whether execution is deferred. -/
structure CallablePhaseBehaviors where
  mayUnwind : Bool
  executionProperties : List ExecutionProperty
  deferredExecution : Bool

/-- `MirCall`. Of the contract, `contractOwner` is the callable that owns its source template. -/
structure Call where
  invocation : CallableInvocation
  cleanup : Bool
  target : CallTarget
  result : BoundCallResult
  arguments : List CallArgument
  phaseBehaviors : Option CallablePhaseBehaviors
  contractOwner : Option Symbol
  intrinsic : Bool

namespace Call

def hasNonUnwindingInvocation (call : Call) : Bool :=
  call.phaseBehaviors.any fun behavior =>
    !behavior.mayUnwind || behavior.executionProperties.contains .total

def mayPropagatePanic (call : Call) : Bool :=
  call.invocation == .bray
    && (match call.target with | .runtime _ => false | _ => true)
    && call.result.isImmediate
    && !call.intrinsic
    && !call.hasNonUnwindingInvocation

end Call

/-! ## 6. Frames -/

/-- `MirFrameRetention`: the broadcast entry, the completion flag and the initialized storages. -/
structure FrameRetention where
  broadcast : BlockId
  completionCleanup : Bool
  initializedStorages : List StorageId

/-- `MirFrameState` -/
structure FrameState where
  state : FrameStateId
  entry : BlockId
  retention : FrameRetention

/-- `MirFrameDescriptor` -/
structure FrameDescriptor where
  frame : Symbol
  abiVersion : RuntimeAbiVersion
  resultType : TypeId
  completionState : Option FrameStateId
  states : List FrameState

/-- `MirFrameComposition` -/
inductive FrameComposition where
  | completion (storage : StorageId)
  | abandon
  | quiesce

/-- `MirFrameComposition::completion` -/
def FrameComposition.completion? : FrameComposition → Option StorageId
  | .completion storage => some storage
  | .abandon | .quiesce => none

/-- `MirCleanupCollection` -/
structure CleanupCollection where
  state : Place
  report : Place
  retention : Option FrameRetention

/-- `MirCleanupCollection::places` -/
def CleanupCollection.places (collection : CleanupCollection) : List Place :=
  [collection.state, collection.report]

/-- `MirCleanupEntry` -/
structure CleanupEntry where
  handoff : BlockId
  ordinary : BlockId
  abandoned : BlockId
  initial : Bool

/-- `MirCleanupEntry::targets` -/
def CleanupEntry.targets (entry : CleanupEntry) : List BlockId :=
  [entry.ordinary, entry.abandoned]

/-- `MirCleanupContinuation` -/
structure CleanupContinuation where
  context : StorageId
  selector : Place
  entries : List CleanupEntry

end Bray.Mir
