/-
  File:      Bray/Mir/Validate.lean
  Subject:   THE VALIDATOR (bray-ir/unit/validation): `MirUnit::is_valid` and every check below it.

  The checks are translated in the order and under the names of the source. A check answers `some ()`
  where the source does; `?` is a bind, `return None` under a condition is a `guard` of its negation,
  and a loop that only checks is a `forM`. A loop that carries a set of what it has seen is a recursion
  with that set as an argument.
-/
import Bray.Lib.Check
import Bray.Mir.Walk

namespace Bray.Mir

variable (mir : MirUnit)

/-! ## 1. Operands and places (operation.rs) -/

/-- `validate_value` -/
def validateValue (value : ValueId) : Option Unit := do
  let _ ← mir.value value
  return ()

/-- The part of `validate_value_at` on the origin of a value. `before` is the operation that reads, or
`none` for the terminator; the order is that of the operation table. -/
def availableAt (origin : ValueOrigin) (block : BlockId) (before : Option OperationId) : Bool :=
  match origin with
  | .blockParameter owner => owner == block
  | .operation operation =>
    (mir.block block).any (·.operations.contains operation)
      && before.all fun before => decide (operation.slot.toNat < before.slot.toNat)

/-- `validate_value_at` -/
def validateValueAt (value : ValueId) (block : BlockId) (before : Option OperationId) : Option Unit := do
  validateValue mir value
  let data ← mir.value value
  guard (availableAt mir data.origin block before)

/-- `validate_storage` -/
def validateStorage (storage : StorageId) : Option Unit := do
  let _ ← mir.storage storage
  return ()

mutual

/-- `validate_operand` -/
def validateOperand (block : BlockId) (before : Option OperationId) : Operand → Option Unit
  | .value id => validateValueAt mir id block before
  | .constant _ _ | .constantTerm _ _ | .immediate _ _ => some ()
  | .copy place | .move place => validatePlace block before place

/-- `validate_place` -/
def validatePlace (block : BlockId) (before : Option OperationId) : Place → Option Unit
  | .mk storage projections ty => do
    validateStorage mir storage
    let root ← mir.storage storage
    let expectedType ← validateProjections block before root.ty projections
    guard (expectedType = ty)

/-- The loop of `validate_place`: answers the type that the last projection leaves. -/
def validateProjections (block : BlockId) (before : Option OperationId) (expectedType : TypeId) :
  List Projection → Option TypeId
  | [] => some expectedType
  | projection :: rest => do
    let resultType ← validateProjection block before expectedType projection
    validateProjections block before resultType rest

/-- One round of that loop. -/
def validateProjection (block : BlockId) (before : Option OperationId) (expectedType : TypeId) :
  Projection → Option TypeId
  | .mk kind sourceType resultType => do
    guard (sourceType = expectedType)
    validateProjectionKind block before kind
    return resultType

def validateProjectionKind (block : BlockId) (before : Option OperationId) : ProjectionKind → Option Unit
  | .index operand => validateOperand block before operand
  | .slice start stop => do
    validateBound block before start
    validateBound block before stop
  | .dereference | .field _ | .tupleField _ | .elementFromStart _ | .elementFromEnd _ | .variant _
  | .activeUnionPayloadField _ _ | .activeUnionPayloadElement _ _ | .nullableValue | .ownedStorage => some ()

/-- One bound of a slice. -/
def validateBound (block : BlockId) (before : Option OperationId) : Option Operand → Option Unit
  | none => some ()
  | some operand => validateOperand block before operand

end

/-- `validate_operand` on an operand that may be absent. -/
def validateOptional (block : BlockId) (before : Option OperationId) (operand : Option Operand) : Option Unit :=
  operand.toList.forM (validateOperand mir block before)

/-- `validate_operand` on operands with the types they must have. -/
def validateTyped (block : BlockId) (before : Option OperationId) (operands : List Operand)
  (types : List TypeId) : Option Unit :=
  (operands.zip types).forM fun typed => do
    validateOperand mir block before typed.1
    guard (mir.operandType typed.1 = some typed.2)

/-- `validate_storage_kind` -/
def validateStorageKind (storage : StorageId) (expected : StorageKind) : Option Unit := do
  validateStorage mir storage
  guard ((mir.storage storage).map (·.kind) = some expected)

/-- `validate_current_frame` -/
def validateCurrentFrame (frame : Symbol) : Option Unit :=
  guard (mir.kind.protectedFrame = some frame)

/-! ## 2. Shared checks (core.rs) -/

/-- `validate_frame_retention` -/
def validateFrameRetention (retention : FrameRetention) : Option Unit := do
  let descriptor ← mir.frameDescriptor
  guard (¬ (retention.completionCleanup ∧ descriptor.completionState = none))
  guard (retention.broadcast.unit = mir.unit ∧ (mir.block retention.broadcast).isSome)
  retention.initializedStorages.forM fun storage =>
    guard (storage.unit = mir.unit ∧ (mir.storage storage).isSome)

/-- `validate_frame_state` -/
def validateFrameState (state : FrameStateId) : Option Unit := do
  let descriptor ← mir.frameDescriptor
  guard (descriptor.states.any (·.state == state))

/-- `validate_runtime_role` -/
def validateRuntimeRole (runtime : RuntimeReference) (expected : RuntimeAbiRole) : Option Unit := do
  guard (runtime.abiVersion = mir.runtimeAbi)
  guard (runtime.role = expected)

/-! ## 3. Calls, constructions and memory -/

/-- The symbols `validate_call` keeps apart: `AnySymbolId` of a parameter. -/
inductive ParameterSymbol where
  | receiver (symbol : Symbol)
  | callable (symbol : Symbol)
  deriving DecidableEq

/-- The loop of `validate_call` over its arguments, with the parameters and ordinals seen. -/
def validateArguments (block : BlockId) (operation : OperationId) (parameters : List ParameterSymbol)
  (ordinals : List UInt32) (sawReceiver : Bool) : List CallArgument → Option Unit
  | [] => some ()
  | .receiver parameter value :: rest => do
    guard (¬ (sawReceiver ∨ parameters ≠ []))
    validateOperand mir block (some operation) value
    guard (.receiver parameter ∉ parameters)
    validateArguments block operation (.receiver parameter :: parameters) ordinals true rest
  | .explicit parameter ordinal value :: rest => do
    guard (ordinal ∉ ordinals)
    validateOperand mir block (some operation) value
    match parameter with
    | some parameter => do
      guard (.callable parameter ∉ parameters)
      validateArguments block operation (.callable parameter :: parameters) (ordinal :: ordinals) sawReceiver
        rest
    | none => validateArguments block operation parameters (ordinal :: ordinals) sawReceiver rest

/-- `accepts_default` of `validate_call` -/
def DefaultOwner.acceptsDefault : DefaultOwner → DefaultValueProvider → Bool
  | .callable _, .callableParameter _ => true
  | .callable _, _ => false
  | .type target _, provider => target.acceptsDefault provider

/-- The match of `validate_call` on the target. -/
def validateCallTarget (block : BlockId) (operation : OperationId) (call : Call) : Option Unit :=
  match call.target with
  | .lifecycle role _ =>
    guard (call.cleanup ∧ !call.result.isImmediate ∧
      (role = .quiesce ∨ role = .releaseBuffer ∨ role = .destroy .dynamic))
  | .direct reference => guard (call.contractOwner.all (· == reference.callableSymbol))
  | .predicate _ => guard call.result.isImmediate
  | .defaultValue owner provider => guard (owner.acceptsDefault provider ∧ call.result.isImmediate)
  | .runtime reference => validateRuntimeRole mir reference reference.role
  | .indirect callee _ => validateOperand mir block (some operation) callee

/-- `validate_call` -/
def validateCall (block : BlockId) (operation : OperationId) (call : Call) : Option Unit := do
  guard (!call.cleanup || (match call.target with | .direct _ | .lifecycle _ _ => true | _ => false))
  validateCallTarget mir block operation call
  guard (call.phaseBehaviors.all fun behaviors => behaviors.deferredExecution == !call.result.isImmediate)
  validateArguments mir block operation [] [] false call.arguments

/-- The loop of `validate_construction`: answers the ordinals it has seen. -/
def validateInputs (block : BlockId) (operation : OperationId) (target : ConstructionTarget)
  (inputs : List ConstructionInputId) (ordinals : List UInt32) :
  List ConstructionInput → Option (List UInt32)
  | [] => some ordinals
  | supplied :: rest => do
    guard (target.acceptsInput supplied.input ∧ supplied.input ∉ inputs ∧ supplied.ordinal ∉ ordinals)
    validateOperand mir block (some operation) supplied.value
    validateInputs block operation target (supplied.input :: inputs) (supplied.ordinal :: ordinals) rest

/-- `validate_construction` -/
def validateConstruction (block : BlockId) (operation : OperationId) (construction : Construction) :
  Option Unit := do
  let ordinals ← validateInputs mir block operation construction.target [] [] construction.inputs
  guard ((ordinals.map UInt32.toNat).insertionSort (· ≤ ·) = List.range ordinals.length)

/-- The match of `validate_memory_operation` on the operand types and the result type. -/
def memoryTypesValid (memory : MemoryOperation) : Bool :=
  let types := memory.operandTypes
  match memory.kind with
  | .uninitNew _ | .uninitPointer _ | .borrowFrom _ | .address _ | .null _ | .isNull _ | .byteAddress _
  | .reinterpret _ _ | .callableFromPointer _ | .pointerFromCallable _ => true
  | .uninitFrom element => types[0]? == some element
  | .uninitWrite element => types[1]? == some element
  | .uninitAssumeInitialized element | .uninitMove element => memory.resultType == some element
  | .offset _ => memory.resultType == types[0]?
  | .read pointee => memory.resultType == some pointee
  | .write pointee => types[1]? == some pointee
  | .volatileRead pointee => memory.resultType == some pointee
  | .volatileWrite pointee => types[1]? == some pointee
  | .exposeAddress _ | .fromExposedAddress _ | .compareAddress _ => true
  | .copy _ => types[0]? == types[1]?
  | .layoutQuery _ _ => true
  | .rawAllocate => types[0]? == types[1]?
  | .rawDeallocate => types[1]? == types[2]?
  | .rawBufferPush element => types[1]? == some element
  | .rawBufferPop element => memory.resultType == some element
  | .rawBufferAllocate => types.all fun ty => some ty == types[0]?
  | .allocate | .deallocate | .rawBufferCapacity | .rawBufferInitializedCount | .rawBufferPointer
  | .rawBufferInitializedSlice | .rawBufferInitializedSliceMut | .rawBufferSparePointer _
  | .rawBufferSetInitializedCount | .rawBufferRelease _ => true
  | .rawBufferReplace _ | .rawBufferRelocate _ => types[0]? == types[1]?
  | .byteBufferFill | .byteBufferRead | .sequenceLength | .callbackState _ | .fence _ _ | .catastrophicAbort
  | .debuggerTrap | .unreachableTermination | .spinLoopHint | .targetFeatureEnabled _ => true
  | .inlineAssembly inputs output labels contract =>
    types[0]? == some inputs && labels.isNone && memory.resultType == output
      && contract.count .symbol == memory.inlineAssemblySymbols.length
  | .atomicInitialize _ | .atomicNotify _ _ => true
  | .atomicLoad value _ => memory.resultType == some value
  | .atomicStore value _ | .atomicWait value _ => types[1]? == some value
  | .atomicExchange value _ | .atomicFetch value _ =>
    types[1]? == some value && memory.resultType == some value
  | .atomicCompareExchange value _ _ _ => types[1]? == some value && types[2]? == some value

/-- `validate_memory_operation` -/
def validateMemoryOperation (block : BlockId) (operation : OperationId) (memory : MemoryOperation) :
  Option Unit := do
  guard memory.kind.hasValidAtomicOrdering
  guard (memory.operands.length = memory.kind.operandCount
    ∧ memory.operandTypes.length = memory.kind.operandCount)
  validateTyped mir block (some operation) memory.operands memory.operandTypes
  guard (memory.kind.producesValue = memory.resultType.isSome)
  guard ((match memory.kind with | .inlineAssembly _ _ _ _ => true | _ => false)
    || memory.inlineAssemblySymbols.isEmpty)
  guard (memoryTypesValid memory)

/-! ## 4. Frame, task and host operations -/

/-- `validate_frame_initializer` -/
def validateFrameInitializer (block : BlockId) (operation : OperationId) : FrameInitializer → Option Unit
  | .callable call => validateCall mir block operation call
  | .taskObservation task _ runtime => do
    validateOperand mir block (some operation) task
    validateRuntimeRole mir runtime .taskObservationCreation

/-- `validate_terminal_state` -/
def validateTerminalState (block : BlockId) (operation : OperationId) (state : TaskTerminalState) :
  Option Unit := do
  let _ ← mir.kind.protectedFrame
  state.operands.forM (validateOperand mir block (some operation))

/-- `validate_async_operation` -/
def validateAsyncOperation (block : BlockId) (id : OperationId) : AsyncOperation → Option Unit
  | .createFrame initializer => validateFrameInitializer mir block id initializer
  | .moveInactiveFrame source destination => do
    validatePlace mir block (some id) source
    validatePlace mir block (some id) destination
    validateStorageKind mir source.storage .inactiveFrame
    validateStorageKind mir destination.storage .inactiveFrame
  | .resumeFrame frame state storage runtime => do
    validateCurrentFrame mir frame
    validateFrameState mir state
    validateStorageKind mir storage .currentFrame
    validateRuntimeRole mir runtime .frameResume
  | .composeAwaitedFrame parent resumeState frame composition => do
    composition.completion?.toList.forM fun completion => validateStorageKind mir completion .temporary
    validateCurrentFrame mir parent
    validateFrameState mir resumeState
    validateOperand mir block (some id) frame
  | .commitAwaitedCompletion completion =>
    completion.toList.forM fun completion => do
      validateStorageKind mir completion .temporary
      let operation ← mir.operation id
      let result ← operation.result
      let value ← mir.value result
      let storage ← mir.storage completion
      guard (value.ty = storage.ty)
  | .startTask value allocation start => do
    validateOperand mir block (some id) value
    validateRuntimeRole mir allocation .taskAllocation
    validateRuntimeRole mir start .taskStart
  | .requestTaskCancellation task runtime => do
    validatePlace mir block (some id) task
    validateRuntimeRole mir runtime .taskCancellationRequest
  | .observeFrameCancellation => do
    let _ ← mir.frameDescriptor
    return ()
  | .observeCurrentRunCancellation runtime =>
    validateRuntimeRole mir runtime .currentRunCancellationObservation
  | .resolveTask task runtime => do
    validatePlace mir block (some id) task
    validateRuntimeRole mir runtime .taskResolution
  | .publishTerminalState state runtime => do
    validateTerminalState mir block id state
    validateRuntimeRole mir runtime .terminalPublication
  | .broadcastInactiveFrame frame runtime => do
    validateOperand mir block (some id) frame
    validateRuntimeRole mir runtime .inactiveFrameBroadcast
  | .resolveInactiveFrame frame runtime => do
    validateOperand mir block (some id) frame
    validateRuntimeRole mir runtime .inactiveFrameResolution
  | .destroyInactiveFrame frame runtime => do
    validateOperand mir block (some id) frame
    validateRuntimeRole mir runtime .inactiveFrameDestruction
  | .transferCleanupIncident incident report runtime => do
    validatePlace mir block (some id) incident
    validatePlace mir block (some id) report
    validateRuntimeRole mir runtime .cleanupIncidentTransfer
  | .destroyTerminalTask task => validateOperand mir block (some id) task

/-- The error type that `validate_host_operation` expects of a resolved entry. -/
def ExecutableEntryResult.error : ExecutableEntryResult → Option TypeId
  | .fallible _ error _ => some error
  | .unit | .i32 => none

/-- `validate_host_operation`. A materialized static is checked for the kind of its storage alone: the
projections of its place are not looked at. -/
def validateHostOperation (operation : HostOperation) : Option Unit :=
  match mir.kind with
  | .executableHost host =>
    match operation with
    | .initializeRuntime runtime => validateRuntimeRole mir runtime .runtimeInitialization
    | .materializeStatic place =>
      guard ((mir.storage place.storage).any (·.kind.isStatic))
    | .selectTestEntry entry runtime => do
      guard ((host.entry entry).isSome ∧ host.requiresRole .testEntrySelection)
      validateRuntimeRole mir runtime .testEntrySelection
    | .executeRoot entry root execution runtime => do
      let contractEntry ← host.entry entry
      guard (root = .callableBody ∧ execution = contractEntry.root)
      validateRuntimeRole mir runtime
        (if execution = .synchronous ∧ host.requiresRole .synchronousRootExecution
          then .synchronousRootExecution else .rootExecution)
    | .observeRootTerminal entry runtime => do
      let _ ← host.entry entry
      validateRuntimeRole mir runtime .rootTerminalObservation
    | .resolveRootTerminal entry error completion panic entryFailure => do
      let contractEntry ← host.entry entry
      guard (error = contractEntry.result.error)
      validateRuntimeRole mir completion .rootCompletionResolution
      validateRuntimeRole mir panic .panicReporting
      validateRuntimeRole mir entryFailure .entryFailureReporting
    | .beginProductEntry | .beginStaticCleanup => some ()
    | .reportCleanupIncidents runtime => validateRuntimeRole mir runtime .cleanupIncidentReporting
    | .structuredShutdown execution runtime => do
      guard (execution.isSome = host.requiresRole .executionShutdown)
      execution.toList.forM fun execution => validateRuntimeRole mir execution .executionShutdown
      validateRuntimeRole mir runtime .structuredShutdown
  | .synchronous | .protectedAsyncFrame _ => none

/-! ## 5. One operation (operation.rs) -/

/-- `validate_operation_block`: the block kinds in which an operation may stand. -/
def operationAllowed (blockKind : BlockKind) : OperationKind → Bool
  | .async (.broadcastInactiveFrame _ _) => blockKind == .cleanupBroadcast
  | .async (.resolveInactiveFrame _ _) | .async (.destroyInactiveFrame _ _) => blockKind != .cleanupBroadcast
  | .async (.requestTaskCancellation _ _) => blockKind != .lifecycleResolution
  | .async (.createFrame _) | .async (.composeAwaitedFrame _ _ _ _) | .async (.commitAwaitedCompletion _)
  | .async (.resolveTask _ _) | .async (.transferCleanupIncident _ _ _) | .async (.destroyTerminalTask _) =>
    blockKind != .cleanupBroadcast
  | .async _ => blockKind == .ordinary
  | .host _ => blockKind == .ordinary
  | .releaseBuffer _ _ | .quiesce _ _ | .destroy _ _ _ => blockKind != .cleanupBroadcast
  | .cleanup .taskCancellation _ _ => blockKind == .cleanupBroadcast
  | .cleanup .lifecycleResolution _ _ => blockKind != .cleanupBroadcast
  | .anonymousCallable _ | .declaredCallable _ | .store _ _ | .takeIncomingReport _ _ | .borrow _ | .traitView _
  | .traitViewMethod _ | .unary _ | .binary _ _ | .patternProjection _ | .aggregate _ _ | .construct _
  | .convert _ _ _ | .numericConversion _ | .nullableQuery _ | .call _ | .memory _ | .text _
  | .admitOutgoing _ _ | .dischargeOutgoing _ _ | .panicReport _ => true

/-- `requires_result` of `validate_operation_result` -/
def requiresResult : OperationKind → Bool
  | .anonymousCallable _ | .declaredCallable _ | .borrow _ | .traitView _ | .traitViewMethod _ | .unary _
  | .binary _ _ | .patternProjection _ | .aggregate _ _ | .construct _ | .convert _ _ _ | .numericConversion _
  | .nullableQuery _ | .call _ | .panicReport _ | .async (.createFrame _)
  | .async (.commitAwaitedCompletion (some _)) | .async (.startTask _ _ _) | .async .observeFrameCancellation
  | .async (.observeCurrentRunCancellation _) | .async (.resolveTask _ _) => true
  | .text text => text.resultType.isSome
  | _ => false

/-- `rejects_result` of `validate_operation_result` -/
def rejectsResult : OperationKind → Bool
  | .admitOutgoing _ _ | .dischargeOutgoing _ _ | .store _ _ | .takeIncomingReport _ _ | .releaseBuffer _ _
  | .quiesce _ _ | .destroy _ _ _ | .cleanup _ _ _ | .host _ | .async (.moveInactiveFrame _ _)
  | .async (.resumeFrame _ _ _ _) | .async (.composeAwaitedFrame _ _ _ _)
  | .async (.commitAwaitedCompletion none) | .async (.requestTaskCancellation _ _)
  | .async (.publishTerminalState _ _) | .async (.broadcastInactiveFrame _ _)
  | .async (.destroyInactiveFrame _ _) | .async (.resolveInactiveFrame _ _)
  | .async (.transferCleanupIncident _ _ _) | .async (.destroyTerminalTask _) => true
  | .text text => text.resultType.isNone
  | _ => false

/-- The checks of `validate_operation_result` on the type of a result. -/
def validateResultType (kind : OperationKind) (result : ValueId) : Option Unit :=
  match kind with
  | .text text => do
    let result ← mir.value result
    guard (some result.ty = text.resultType)
  | .nullableQuery query => do
    let result ← mir.value result
    guard (result.ty = query.resultType)
  | .convert operand sourceType targetType => do
    let result ← mir.value result
    guard (mir.operandType operand = some sourceType ∧ result.ty = targetType)
  | .call call => do
    let result ← mir.value result
    guard (result.ty = call.result.ty)
  | .memory memory => do
    let result ← mir.value result
    guard (some result.ty = memory.resultType)
  | .async (.createFrame initializer) => do
    let result ← mir.value result
    guard (initializer.futureType = some result.ty)
  | _ => some ()

/-- Whether a memory operation has a result exactly when its kind produces one. -/
def memoryProduces : OperationKind → Bool → Bool
  | .memory memory, produced => memory.kind.producesValue == produced
  | _, _ => true

/-- `validate_operation_result` -/
def validateOperationResult (operation : Operation) : Option Unit := do
  guard (¬ (requiresResult operation.kind ∧ operation.result.isNone))
  guard (¬ (rejectsResult operation.kind ∧ operation.result.isSome))
  guard (memoryProduces operation.kind operation.result.isSome)
  operation.result.toList.forM (validateResultType mir operation.kind)

def validateOwner (block : BlockId) (id : OperationId) : OutgoingOwner → Option Unit
  | .frameFactory callee => validateOperand mir block (some id) callee
  | .value _ | .invocation _ _ => some ()

/-- `validate_operation`, its part on the cleanup collection. -/
def validateCollection (block : BlockId) (id : OperationId) (collection : CleanupCollection) : Option Unit := do
  collection.places.forM (validatePlace mir block (some id))
  collection.retention.toList.forM (validateFrameRetention mir)

/-- The number of operands an aggregate takes. -/
def aggregateArity : AggregateKind → List Operand → Bool
  | .tuple, _ | .array, _ => true
  | .range, operands => operands.length == 2
  | .repeatedArray, operands | .nullablePresent, operands => operands.length == 1

/-- Whether a key names an anonymous callable. An imported key is not looked at. -/
def AnonymousCallableReference.isAnonymousCallable : AnonymousCallableReference → Bool
  | .bound kind => kind == .anonymousCallable
  | .imported _ => true

/-- `validate_operation`, its match on the kind. -/
def validateOperationKind (block : BlockId) (id : OperationId) : OperationKind → Option Unit
  | .admitOutgoing owner runtime => do
    validateOwner mir block id owner
    validateRuntimeRole mir runtime .outgoingAdmission
  | .dischargeOutgoing owner runtime => do
    validateOwner mir block id owner
    validateRuntimeRole mir runtime .outgoingDischarge
  | .anonymousCallable key => guard key.isAnonymousCallable
  | .declaredCallable _ => some ()
  | .store destination value => do
    validatePlace mir block (some id) destination
    validateOperand mir block (some id) value
    guard (mir.operandType value = some destination.ty)
  | .takeIncomingReport destination normalReport => do
    validatePlace mir block (some id) destination
    normalReport.toList.forM fun report => do
      validateOperand mir block (some id) report
      guard (mir.operandType report = some destination.ty)
  | .borrow place | .quiesce place _ | .releaseBuffer place _ | .cleanup _ place _ =>
    validatePlace mir block (some id) place
  | .destroy place _ abandoned => do
    validatePlace mir block (some id) place
    validateOptional mir block (some id) abandoned
  | .traitView operand | .traitViewMethod operand | .unary operand | .convert operand _ _
  | .numericConversion operand => validateOperand mir block (some id) operand
  | .nullableQuery query => do
    validateOperand mir block (some id) query.operand
    guard (mir.operandType query.operand = some query.operandType)
  | .binary left right => do
    validateOperand mir block (some id) left
    validateOperand mir block (some id) right
  | .patternProjection subject => validateOperand mir block (some id) subject
  | .panicReport (.message message) | .panicReport (.explicitTestFailure message) =>
    validateOperand mir block (some id) message
  | .panicReport (.assertion message) => validateOptional mir block (some id) message
  | .panicReport .memoryLayoutSizeOverflow | .panicReport .memoryLayoutUnsupportedAlignment => some ()
  | .aggregate kind operands => do
    guard (aggregateArity kind operands)
    operands.forM (validateOperand mir block (some id))
  | .construct construction => validateConstruction mir block id construction
  | .call call => validateCall mir block id call
  | .memory operation => validateMemoryOperation mir block id operation
  | .text operation => do
    guard (operation.operands.length = operation.operandTypes.length)
    validateTyped mir block (some id) operation.operands operation.operandTypes
  | .async operation => validateAsyncOperation mir block id operation
  | .host operation => validateHostOperation mir operation

/-- `validate_operation` -/
def validateOperation (block : BlockId) (blockKind : BlockKind) (id : OperationId) (operation : Operation) :
  Option Unit := do
  validateOperationResult mir operation
  guard (operationAllowed blockKind operation.kind)
  operation.kind.cleanupCollection.toList.forM (validateCollection mir block id)
  validateOperationKind mir block id operation.kind

/-! ## 6. Control flow (control.rs) -/

def MirUnit.blockKind (block : BlockId) : Option BlockKind :=
  (mir.block block).map (·.kind)

/-- `validate_edge` -/
def validateEdge (source : BlockId) (edge : Edge) : Option Unit := do
  let target ← mir.block edge.target
  guard (edge.arguments.length = target.parameters.length)
  (edge.arguments.zip target.parameters).forM fun pair => do
    validateOperand mir source none pair.1
    let argumentType ← mir.operandType pair.1
    let parameter ← mir.value pair.2
    guard (argumentType = parameter.ty)

/-- `validate_local_edge` -/
def validateLocalEdge (source : BlockId) (edge : Edge) : Option Unit := do
  validateEdge mir source edge
  let sourceKind ← mir.blockKind source
  guard (mir.blockKind edge.target = some sourceKind)

/-- `validate_goto_edge` -/
def validateGotoEdge (source : BlockId) (edge : Edge) : Option Unit := do
  validateEdge mir source edge
  let sourceKind ← mir.blockKind source
  guard (mir.blockKind edge.target = some sourceKind
    ∨ (sourceKind = .lifecycleResolution ∧ mir.blockKind edge.target = some .ordinary))

/-- `validate_ordinary_edge` -/
def validateOrdinaryEdge (source : BlockId) (edge : Edge) : Option Unit := do
  validateEdge mir source edge
  guard (mir.blockKind edge.target = some .ordinary)

/-- `validate_cleanup_edge` -/
def validateCleanupEdge (source : BlockId) (cleanup : CleanupEdge) : Option Unit := do
  validateEdge mir source cleanup.edge
  let block ← mir.block cleanup.edge.target
  guard (block.kind =
    match cleanup.phase with
    | .taskCancellation => .cleanupBroadcast
    | .lifecycleResolution => .lifecycleResolution)

/-- `validate_cleanup_start` -/
def validateCleanupStart (source : BlockId) (cleanup : CleanupEdge) : Option Unit := do
  guard (cleanup.phase = .taskCancellation)
  validateCleanupEdge mir source cleanup

/-- `validate_iteration_item`, and the same check on the normal continuation of inline assembly. -/
def validateSingleParameter (target : BlockId) (ty : TypeId) : Option Unit := do
  let block ← mir.block target
  match block.parameters with
  | [parameter] => do
    let parameter ← mir.value parameter
    guard (block.kind = .ordinary ∧ parameter.ty = ty)
  | _ => none

/-- `validate_call_failure_edge` -/
def validateCallFailureEdge (source : BlockId) (edge : CallFailureEdge) : Option Unit := do
  let block ← mir.block edge.target
  guard (mir.blockKind source = some block.kind ∧ block.parameters = [])
  validatePlace mir source none edge.report

/-- `propagates_panic` of `validate_call_outcome_check` -/
def propagatesPanic (kind : OperationKind) : Bool :=
  kind.inputPreservedOnRejection.isSome || match kind with
    | .call call => call.mayPropagatePanic
    | .construct construction => match construction.target with | .typeForm _ _ _ => true | _ => false
    | .memory memory => memory.kind.requiresCheckedOutcome
    | .text text => text.kind == .release
    | .async (.commitAwaitedCompletion _) | .async (.broadcastInactiveFrame _ _)
    | .async (.resolveInactiveFrame _ _) | .async (.destroyInactiveFrame _ _) | .admitOutgoing _ _
    | .cleanup _ _ _ | .quiesce _ _ | .releaseBuffer _ _ | .destroy _ _ _ => true
    | _ => false

def MirUnit.lastOperation (block : Block) : Option Operation :=
  block.operations.getLast?.bind mir.operation

/-- `validate_call_outcome_check` -/
def validateCallOutcomeCheck (source : BlockId) (block : Block) (completed : Edge)
  (panicked : CallFailureEdge) : Option Unit := do
  validateLocalEdge mir source completed
  validateCallFailureEdge mir source panicked
  guard ((mir.lastOperation block).any (propagatesPanic ·.kind))

/-- The loop of `validate_inline_assembly` over the alternates, with the successors seen. -/
def validateAlternates (successors : List BlockId) : List BlockId → Option Unit
  | [] => some ()
  | alternate :: rest => do
    let block ← mir.block alternate
    guard (alternate ∉ successors ∧ block.kind = .ordinary ∧ block.parameters = [])
    validateAlternates (alternate :: successors) rest

/-- `validate_inline_assembly` -/
def validateInlineAssembly (block : BlockId) (assembly : InlineAssemblyTerminator) : Option Unit := do
  validateOperand mir block none assembly.inputs
  guard (mir.operandType assembly.inputs = some assembly.inputsType
    ∧ assembly.contract.count .label = assembly.alternates.length
    ∧ assembly.contract.count .symbol = assembly.symbols.length)
  validateAlternates mir [assembly.normal] assembly.alternates
  validateSingleParameter mir assembly.normal assembly.outputType

/-- `validate_return` -/
def validateReturn (block : BlockId) (value report : Option Operand) : Option Unit := do
  guard (¬ (report.isSome ∧ mir.kind.protectedFrame.isSome))
  (value.toList ++ report.toList).forM (validateOperand mir block none)

/-- The loop over the cases of a switch, with the values seen. -/
def validateCases (block : BlockId) (values : List Symbol) : List SwitchCase → Option Unit
  | [] => some ()
  | case :: rest => do
    guard (case.value ∉ values)
    validateLocalEdge mir block case.edge
    validateCases block (case.value :: values) rest

def validatePayload (block : BlockId) : SuspensionKind → Option Operand → Option Unit
  | .taskEvent, some payload => validateOperand mir block none payload
  | .awaited, none | .yield, none => some ()
  | _, _ => none

/-- The terminators that a broadcast block may end with. -/
def broadcastTerminator : TerminatorKind → Bool
  | .goto _ | .branch _ _ _ | .patternBranch _ _ _ | .switch _ _ _ | .inlineAssembly _ | .continueCleanup _
  | .checkCallOutcome _ _ _ _ | .takeCallReport _ _ | .return none none | .unreachable | .propagatePanic _ _
  | .propagateCancellation _ _ => true
  | _ => false

/-- The last operation that a taken call report may belong to. -/
def leavesCallReport : OperationKind → Bool
  | .call _ | .async (.commitAwaitedCompletion _) => true
  | _ => false

/-- The match of `validate_terminator`. -/
def validateTerminatorKind (id : BlockId) (block : Block) : TerminatorKind → Option Unit
  | .goto edge => validateGotoEdge mir id edge
  | .branch condition thenEdge elseEdge => do
    validateOperand mir id none condition
    validateLocalEdge mir id thenEdge
    validateLocalEdge mir id elseEdge
  | .patternBranch subject matched unmatched => do
    validateOperand mir id none subject
    validateLocalEdge mir id matched
    validateLocalEdge mir id unmatched
  | .rangeIterate cursor elementType item exhausted => do
    validatePlace mir id none cursor
    validateSingleParameter mir item elementType
    validateOrdinaryEdge mir id exhausted
  | .switch discriminant cases otherwise => do
    validateOperand mir id none discriminant
    validateCases mir id [] cases
    validateLocalEdge mir id otherwise
  | .inlineAssembly assembly => validateInlineAssembly mir id assembly
  | .return value report => validateReturn mir id value report
  | .unreachable => some ()
  | .suspend kind payload resumeState resume cancellation registration wake => do
    validatePayload mir id kind payload
    validateFrameState mir resumeState
    validateLocalEdge mir id resume
    let descriptor ← mir.frameDescriptor
    guard ((descriptor.states.find? (·.state == resumeState)).map (·.entry) = some resume.target)
    validateCleanupStart mir id cancellation
    validateRuntimeRole mir registration .suspensionRegistration
    validateRuntimeRole mir wake .wake
  | .forwardRunResult result edges => do
    validateOperand mir id none result
    validateOrdinaryEdge mir id edges.completed
    validateCleanupStart mir id edges.panicked
    validateCleanupStart mir id edges.cancelled
  | .takeCallReport completed report => do
    guard ((mir.lastOperation block).any (leavesCallReport ·.kind))
    validateLocalEdge mir id completed
    validatePlace mir id none report
  | .checkCallOutcome completed completedReport panicked cancelled => do
    validateCallOutcomeCheck mir id block completed panicked
    validateCallFailureEdge mir id cancelled
    completedReport.toList.forM (validatePlace mir id none)
  | .beginCleanup edge => validateCleanupStart mir id edge
  | .continueCleanup edge => do
    guard (block.kind = .cleanupBroadcast ∧ edge.phase = .lifecycleResolution)
    validateCleanupEdge mir id edge
  | .panic report cleanup => do
    validateOperand mir id none report
    validateCleanupStart mir id cleanup
  | .propagatePanic report runtime | .propagateCancellation report runtime => do
    validateOperand mir id none report
    validateRuntimeRole mir runtime .panicPropagation
  | .cancelCurrentRun cleanup => validateCleanupStart mir id cleanup

/-- `validate_terminator` -/
def validateTerminator (id : BlockId) (block : Block) : Option Unit := do
  validateTerminatorKind mir id block block.terminator
  guard (¬ (block.kind = .cleanupBroadcast ∧ !broadcastTerminator block.terminator))

/-! ## 7. The unit (core.rs) -/

/-- The loop of `validate_cleanup_continuation` over the targets of one entry. -/
def validateEntryTargets (entries : List BlockId) : List BlockId → Option (List BlockId)
  | [] => some entries
  | entry :: rest => do
    let _ ← mir.block entry
    guard (entry ≠ mir.entry ∧ entry ∉ entries)
    validateEntryTargets (entry :: entries) rest

def returnsNothing : TerminatorKind → Bool
  | .return none _ => true
  | _ => false

/-- The loop of `validate_cleanup_continuation` over the entries. -/
def validateCleanupEntries (entries : List BlockId) : List CleanupEntry → Option Unit
  | [] => some ()
  | cleanup :: rest => do
    let handoff ← mir.block cleanup.handoff
    guard (returnsNothing handoff.terminator)
    let entries ← validateEntryTargets mir entries cleanup.targets
    validateCleanupEntries entries rest

/-- The projections of a selector: a field of the dereferenced context. -/
def selectsField : List Projection → Bool
  | [.mk .dereference _ _, .mk (.tupleField _) _ _] => true
  | _ => false

/-- `validate_cleanup_continuation` -/
def validateCleanupContinuation : Option Unit :=
  mir.cleanupContinuation.toList.forM fun continuation => do
    let context ← mir.storage continuation.context
    guard (mir.kind = .synchronous ∧ context.kind = .parameter 1
      ∧ continuation.selector.storage = continuation.context
      ∧ selectsField continuation.selector.projections ∧ continuation.entries ≠ [])
    validateCleanupEntries mir [] continuation.entries

/-- The storages of completed results, in table order. -/
def MirUnit.completions : List (StorageId × Storage) :=
  (mir.storages.zipIdx.filter (·.1.kind == .frameCompletion)).map fun entry =>
    (⟨mir.unit, (compactSlot entry.2).getD 0xFFFFFFFF⟩, entry.1)

/-- The part of `validate_frame_descriptor` on the completed result. -/
def validateCompletion (descriptor : FrameDescriptor) : Option Unit :=
  match descriptor.completionState, mir.completions with
  | some state, (storage, value) :: rest => do
    let entry ← descriptor.states.find? (·.state == state)
    guard (entry.retention.completionCleanup ∧ value.ty = descriptor.resultType
      ∧ storage ∈ entry.retention.initializedStorages)
    guard (rest = [])
  | none, [] => some ()
  | _, _ => none

/-- `validate_frame_descriptor` -/
def validateFrameDescriptor : Option Unit := do
  guard (¬ (mir.frameDescriptor.isNone ∧ mir.storages.any (·.kind == .frameCompletion)))
  match mir.kind, mir.frameDescriptor with
  | .protectedAsyncFrame frame, some descriptor => do
    guard (descriptor.frame = frame)
    guard (descriptor.abiVersion = mir.runtimeAbi)
    validateCompletion mir descriptor
    descriptor.states.forM fun state => do
      guard (state.entry.unit = mir.unit ∧ (mir.block state.entry).isSome)
      validateFrameRetention mir state.retention
  | .protectedAsyncFrame _, none => none
  | .synchronous, some _ | .executableHost _, some _ => none
  | .executableHost host, none => guard (host.abiVersion = mir.runtimeAbi)
  | .synchronous, none => some ()

/-- `validate_value_definitions` -/
def validateValueDefinitions : Option Unit :=
  mir.values.zipIdx.forM fun entry => do
    let slot ← compactSlot entry.2
    match entry.1.origin with
    | .blockParameter block => do
      let block ← mir.block block
      guard (⟨mir.unit, slot⟩ ∈ block.parameters)
    | .operation operation => do
      let operation ← mir.operation operation
      guard (operation.result = some ⟨mir.unit, slot⟩)

/-- The inner loop of `validate_blocks`, with the operations seen. -/
def validateListed (id : BlockId) (kind : BlockKind) (seen : List Bool) :
  List OperationId → Option (List Bool)
  | [] => some seen
  | operation :: rest => do
    let index ← mir.localIndex operation.unit operation.slot
    let marked ← seen[index]?
    guard (marked = false)
    let data ← mir.operations[index]?
    validateOperation mir id kind operation data
    validateListed id kind (seen.set index true) rest

/-- The outer loop of `validate_blocks`. -/
def validateBlockTable (seen : List Bool) : List (Block × Nat) → Option (List Bool)
  | [] => some seen
  | (block, index) :: rest => do
    let slot ← compactSlot index
    block.parameters.forM (validateValue mir)
    let seen ← validateListed mir ⟨mir.unit, slot⟩ block.kind seen block.operations
    validateTerminator mir ⟨mir.unit, slot⟩ block
    validateBlockTable seen rest

/-- `validate_blocks` -/
def validateBlocks : Option Unit := do
  let seen ← validateBlockTable mir (List.replicate mir.operations.length false) mir.blocks.zipIdx
  guard (seen.all id)

/-- The loop of `binary_search_by` in the standard library. -/
def searchBase {α : Type} (test : α → Bool) (xs : List α) : Nat → Nat → Nat → Nat
  | 0, base, _ => base
  | fuel + 1, base, size =>
    if size ≤ 1 then base
    else
      let half := size / 2
      searchBase test xs fuel (if xs[base + half]?.any test then base + half else base) (size - half)

/-- `slice::partition_point`, by the binary search of the standard library: on a slice that is not
partitioned the answer is still the one of that search. -/
def partitionPoint {α : Type} (test : α → Bool) (xs : List α) : Nat :=
  let base := searchBase test xs xs.length 0 xs.length
  if xs[base]?.any test then base + 1 else base

def materializes : OperationKind → Bool
  | .host (.materializeStatic _) => true
  | _ => false

/-- The operations of one host entry, after the selection where there is one. -/
def entryOperations (expected : Nat) : List OperationKind → Bool
  | [.host (.executeRoot executed _ _ _), .host (.observeRootTerminal observed _),
    .host (.resolveRootTerminal resolved _ _ _ _)] =>
    executed.toNat == expected && observed.toNat == expected && resolved.toNat == expected
  | _ => false

/-- The loop of `validate_host_sequence` over the chunks of the entries. -/
def validateEntries (selectsEntries : Bool) : Nat → Nat → List OperationKind → Bool
  | _, 0, _ => true
  | expected, count + 1, operations =>
    if selectsEntries then
      match operations with
      | .host (.selectTestEntry entry _) :: operations =>
        entry.toNat == expected && entryOperations expected (operations.take 3)
          && validateEntries selectsEntries (expected + 1) count (operations.drop 3)
      | _ => false
    else
      entryOperations expected (operations.take 3)
        && validateEntries selectsEntries (expected + 1) count (operations.drop 3)

/-- The first operation, where the product requires the runtime to be initialized. -/
def afterInitialization (host : ExecutableHostContract) (operations : List OperationKind) :
  Option (List OperationKind) :=
  if host.requiresRole .runtimeInitialization then
    match operations with
    | .host (.initializeRuntime _) :: rest => some rest
    | _ => none
  else some operations

/-- The admission that opens product entry. -/
def afterAdmission : List OperationKind → Option (List OperationKind)
  | .host .beginProductEntry :: rest => some rest
  | _ => none

/-- The two operations between the entries and the shutdown. -/
def staticCleanup : List OperationKind → Bool
  | [.host .beginStaticCleanup, .host (.reportCleanupIncidents _)] => true
  | _ => false

/-- The operation that ends a host. -/
def shutsDown : OperationKind → Bool
  | .host (.structuredShutdown _ _) => true
  | _ => false

/-- `validate_host_sequence` -/
def validateHostSequence : Option Unit :=
  match mir.kind with
  | .executableHost host => do
    let operations := mir.operations.map (·.kind)
    let shutdown ← operations.getLast?
    guard (shutsDown shutdown)
    let preceding ← afterInitialization host operations.dropLast
    let preceding ← afterAdmission preceding
    let entries := preceding.drop (partitionPoint materializes preceding)
    let selectsEntries := host.requiresRole .testEntrySelection
    let count := (if selectsEntries then 4 else 3) * host.entries.length
    guard (count + 2 ≤ entries.length)
    guard (validateEntries selectsEntries 0 host.entries.length (entries.take count))
    guard (staticCleanup (entries.drop count))
  | .synchronous | .protectedAsyncFrame _ => some ()

/-- `validate_unit` -/
def validateUnit : Option Unit := do
  let entry ← mir.block mir.entry
  guard (entry.kind = .ordinary)
  validateFrameDescriptor mir
  validateCleanupContinuation mir
  validateValueDefinitions mir
  validateBlocks mir
  validateHostSequence mir

/-- `MirUnit::is_valid` -/
def MirUnit.isValid : Bool :=
  (validateUnit mir).isSome

end Bray.Mir
