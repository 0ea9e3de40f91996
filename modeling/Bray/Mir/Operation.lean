/-
  File:      Bray/Mir/Operation.lean
  Subject:   OPERATIONS AND CONTROL (bray-ir/operation, control, block, unit/model; the memory
    operations of bray-bound-tree/memory).

  One constructor for each shape of the source, with the data that validation and the walks read. The
  source anchors are left out, and so are payloads that are carried to code generation unread: the
  operators, the entries of a trait view, the variants of a run result.
-/
import Bray.Mir.Data

namespace Bray.Mir

/-! ## 1. Memory operations -/

/-- `MemoryOrder` -/
inductive MemoryOrder where
  | relaxed | acquire | release | acquireRelease | sequentiallyConsistent

namespace MemoryOrder

def validForLoad : MemoryOrder → Bool
  | .release | .acquireRelease => false
  | _ => true

def validForStore : MemoryOrder → Bool
  | .acquire | .acquireRelease => false
  | _ => true

def permitsFailure : MemoryOrder → MemoryOrder → Bool
  | _, .release | _, .acquireRelease => false
  | .relaxed, .relaxed | .release, .relaxed => true
  | .acquire, .relaxed | .acquire, .acquire => true
  | .acquireRelease, .relaxed | .acquireRelease, .acquire => true
  | .sequentiallyConsistent, .relaxed | .sequentiallyConsistent, .acquire => true
  | .sequentiallyConsistent, .sequentiallyConsistent => true
  | _, _ => false

end MemoryOrder

/-- `MemoryLayoutQueryKind` -/
inductive MemoryLayoutQueryKind where
  | size | alignment | stride | layout | layoutStatus | trailing

/-- `InlineAssemblyOperandKind` -/
inductive InlineAssemblyOperandKind where
  | input | lateOutput | output | inOut | earlyInOut | immediate | symbol | memory | label
  deriving DecidableEq

/-- `InlineAssemblyContract`: the roles of its operands. -/
structure InlineAssemblyContract where
  operands : List InlineAssemblyOperandKind

/-- How many operands of a contract have one role. -/
def InlineAssemblyContract.count (contract : InlineAssemblyContract) (kind : InlineAssemblyOperandKind) :
  Nat :=
  (contract.operands.filter (· == kind)).length

/-- `CheckedMemoryOperationKind` -/
inductive MemoryOperationKind where
  | uninitNew (element : TypeId)
  | uninitFrom (element : TypeId)
  | uninitPointer (element : TypeId)
  | uninitWrite (element : TypeId)
  | uninitAssumeInitialized (element : TypeId)
  | uninitMove (element : TypeId)
  | borrowFrom (pointee : TypeId)
  | address (pointee : TypeId)
  | null (pointee : TypeId)
  | isNull (pointee : TypeId)
  | offset (pointee : TypeId)
  | byteAddress (pointee : TypeId)
  | reinterpret (source target : TypeId)
  | callableFromPointer (callable : TypeId)
  | pointerFromCallable (callable : TypeId)
  | read (pointee : TypeId)
  | write (pointee : TypeId)
  | copy (pointee : TypeId)
  | layoutQuery (ty : TypeId) (kind : MemoryLayoutQueryKind)
  | rawAllocate
  | rawDeallocate
  | allocate
  | deallocate
  | rawBufferAllocate
  | rawBufferPush (element : TypeId)
  | rawBufferPop (element : TypeId)
  | rawBufferCapacity
  | rawBufferInitializedCount
  | rawBufferPointer
  | rawBufferInitializedSlice
  | rawBufferInitializedSliceMut
  | rawBufferSparePointer (element : TypeId)
  | rawBufferSetInitializedCount
  | rawBufferRelease (element : TypeId)
  | rawBufferReplace (element : TypeId)
  | rawBufferRelocate (element : TypeId)
  | byteBufferFill
  | byteBufferRead
  | sequenceLength
  | callbackState (state : TypeId)
  | volatileRead (pointee : TypeId)
  | volatileWrite (pointee : TypeId)
  | exposeAddress (pointee : TypeId)
  | fromExposedAddress (pointee : TypeId)
  | compareAddress (pointee : TypeId)
  | fence (compilerOnly : Bool) (order : MemoryOrder)
  | catastrophicAbort
  | debuggerTrap
  | unreachableTermination
  | spinLoopHint
  | targetFeatureEnabled (feature : Symbol)
  | inlineAssembly (inputs : TypeId) (output labels : Option TypeId) (contract : InlineAssemblyContract)
  | atomicInitialize (value : TypeId)
  | atomicLoad (value : TypeId) (order : MemoryOrder)
  | atomicStore (value : TypeId) (order : MemoryOrder)
  | atomicExchange (value : TypeId) (order : MemoryOrder)
  | atomicCompareExchange (value : TypeId) (weak : Bool) (success failure : MemoryOrder)
  | atomicFetch (value : TypeId) (order : MemoryOrder)
  | atomicWait (value : TypeId) (order : MemoryOrder)
  | atomicNotify (value : TypeId) (all : Bool)

namespace MemoryOperationKind

def hasValidAtomicOrdering : MemoryOperationKind → Bool
  | .atomicLoad _ order | .atomicWait _ order => order.validForLoad
  | .atomicStore _ order => order.validForStore
  | .atomicCompareExchange _ _ success failure => success.permitsFailure failure
  | _ => true

def operandCount : MemoryOperationKind → Nat
  | .uninitFrom _ | .uninitPointer _ | .uninitAssumeInitialized _ | .uninitMove _ | .address _ | .isNull _
  | .byteAddress _ | .reinterpret _ _ | .callableFromPointer _ | .pointerFromCallable _ | .read _
  | .allocate | .deallocate | .rawBufferPop _ | .rawBufferCapacity | .rawBufferInitializedCount
  | .rawBufferPointer | .rawBufferInitializedSlice | .rawBufferInitializedSliceMut
  | .rawBufferSparePointer _ | .rawBufferRelease _ | .sequenceLength | .callbackState _
  | .atomicInitialize _ | .atomicLoad _ _ | .atomicNotify _ _ => 1
  | .volatileRead _ | .exposeAddress _ | .fromExposedAddress _ => 1
  | .uninitWrite _ | .borrowFrom _ | .offset _ | .write _ | .rawAllocate | .rawBufferPush _
  | .rawBufferReplace _ | .rawBufferRelocate _ | .rawBufferSetInitializedCount | .byteBufferRead
  | .atomicStore _ _ | .atomicExchange _ _ | .atomicFetch _ _ | .atomicWait _ _ => 2
  | .volatileWrite _ | .compareAddress _ => 2
  | .copy _ | .rawDeallocate | .rawBufferAllocate | .byteBufferFill | .atomicCompareExchange _ _ _ _ => 3
  | .layoutQuery _ .layout | .layoutQuery _ .layoutStatus | .layoutQuery _ .trailing => 1
  | .inlineAssembly _ _ _ _ => 1
  | .uninitNew _ | .null _ | .layoutQuery _ _ | .fence _ _ | .catastrophicAbort | .debuggerTrap
  | .unreachableTermination | .spinLoopHint | .targetFeatureEnabled _ => 0

def producesValue : MemoryOperationKind → Bool
  | .write _ | .copy _ | .rawDeallocate | .deallocate | .rawBufferSetInitializedCount | .rawBufferRelease _
  | .rawBufferPush _ | .rawBufferReplace _ | .rawBufferRelocate _ | .byteBufferFill | .volatileWrite _
  | .fence _ _ | .catastrophicAbort | .debuggerTrap | .unreachableTermination | .spinLoopHint
  | .inlineAssembly _ none _ _ | .atomicStore _ _ | .atomicWait _ _ | .atomicNotify _ _ => false
  | _ => true

def requiresCheckedOutcome : MemoryOperationKind → Bool
  | .rawAllocate | .rawDeallocate | .rawBufferAllocate | .allocate | .deallocate | .rawBufferRelease _
  | .rawBufferReplace _ => true
  | _ => false

end MemoryOperationKind

/-- `MirMemoryOperation`, with the number of callable symbols it retains. -/
structure MemoryOperation where
  kind : MemoryOperationKind
  operands : List Operand
  operandTypes : List TypeId
  resultType : Option TypeId
  inlineAssemblySymbols : List CallableReference

/-! ## 2. Other payloads -/

/-- `MirPanicCause` -/
inductive PanicCause where
  | message (message : Operand)
  | assertion (message : Option Operand)
  | explicitTestFailure (message : Operand)
  | memoryLayoutSizeOverflow
  | memoryLayoutUnsupportedAlignment

/-- `MirAggregateKind` -/
inductive AggregateKind where
  | tuple | array | repeatedArray | range | nullablePresent

/-- `MirTextOperationKind`: only `Release` is told apart by control flow. -/
inductive TextOperationKind where
  | scalarCount | isEmpty | equals | scalarAt | scalarSlice | utf8 | fromUtf8 | characterScalarValue
  | characterFromScalarValue | characterUtf8Length | characterUtf8Byte | characterIsAlphabetic
  | characterIsNumeric | characterIsWhitespace | release
  deriving DecidableEq

/-- `MirTextOperation` -/
structure TextOperation where
  kind : TextOperationKind
  operands : List Operand
  operandTypes : List TypeId
  resultType : Option TypeId

/-- `MirConstructionInput` -/
structure ConstructionInput where
  input : ConstructionInputId
  ordinal : UInt32
  value : Operand

/-- `MirConstruction` -/
structure Construction where
  target : ConstructionTarget
  inputs : List ConstructionInput

/-- `MirNullableQuery` -/
structure NullableQuery where
  operand : Operand
  operandType : TypeId
  resultType : TypeId

/-- `BoundUnitKind` of a key: whether it is an anonymous callable or a callable body. -/
inductive BoundUnitKind where
  | callableBody | anonymousCallable | runtimeDefault | constantTemplate | embeddedConstant
  | predicateDefinition | constraint | contractClause | targetGate
  deriving DecidableEq

/-- `MirAnonymousCallableReference` -/
inductive AnonymousCallableReference where
  | bound (kind : BoundUnitKind)
  | imported (key : Symbol)

/-- `MirTaskTerminalState` -/
inductive TaskTerminalState where
  | completed (value : Operand) (report : Option Operand)
  | cancelled (report : Operand)
  | panicked (report : Operand)

/-- `MirTaskTerminalState::operands` -/
def TaskTerminalState.operands : TaskTerminalState → List Operand
  | .completed value report => value :: report.toList
  | .cancelled report | .panicked report => [report]

/-- `MirFrameInitializer` -/
inductive FrameInitializer where
  | callable (call : Call)
  | taskObservation (task : Operand) (futureType : TypeId) (runtime : RuntimeReference)

/-- `MirFrameInitializer::future_type` -/
def FrameInitializer.futureType : FrameInitializer → Option TypeId
  | .callable call =>
    match call.result with
    | .lazyFuture _ futureType => some futureType
    | .immediate _ => none
  | .taskObservation _ futureType _ => some futureType

/-- `MirAsyncOperation` -/
inductive AsyncOperation where
  | createFrame (initializer : FrameInitializer)
  | moveInactiveFrame (source destination : Place)
  | resumeFrame (frame : Symbol) (state : FrameStateId) (storage : StorageId) (runtime : RuntimeReference)
  | composeAwaitedFrame (parent : Symbol) (resumeState : FrameStateId) (frame : Operand)
    (composition : FrameComposition)
  | commitAwaitedCompletion (completion : Option StorageId)
  | startTask (value : Operand) (allocation start : RuntimeReference)
  | requestTaskCancellation (task : Place) (runtime : RuntimeReference)
  | observeFrameCancellation
  | observeCurrentRunCancellation (runtime : RuntimeReference)
  | resolveTask (task : Place) (runtime : RuntimeReference)
  | publishTerminalState (state : TaskTerminalState) (runtime : RuntimeReference)
  | broadcastInactiveFrame (frame : Operand) (runtime : RuntimeReference)
  | resolveInactiveFrame (frame : Operand) (runtime : RuntimeReference)
  | destroyInactiveFrame (frame : Operand) (runtime : RuntimeReference)
  | transferCleanupIncident (incident report : Place) (runtime : RuntimeReference)
  | destroyTerminalTask (task : Operand)

/-- `MirOutgoingOwner` -/
inductive OutgoingOwner where
  | frameFactory (callee : Operand)
  | value (ty : TypeId)
  | invocation (selection : Symbol) (result : BoundCallResult)

/-- `MirHostOperation` -/
inductive HostOperation where
  | initializeRuntime (runtime : RuntimeReference)
  | materializeStatic (place : Place)
  | selectTestEntry (entry : UInt32) (runtime : RuntimeReference)
  | executeRoot (entry : UInt32) (root : BoundUnitKind) (execution : RootExecution)
    (runtime : RuntimeReference)
  | observeRootTerminal (entry : UInt32) (runtime : RuntimeReference)
  | resolveRootTerminal (entry : UInt32) (error : Option TypeId)
    (completion panic entryFailure : RuntimeReference)
  | beginStaticCleanup
  | beginProductEntry
  | reportCleanupIncidents (runtime : RuntimeReference)
  | structuredShutdown (execution : Option RuntimeReference) (runtime : RuntimeReference)

/-! ## 3. Operations -/

/-- `MirOperationKind` -/
inductive OperationKind where
  | takeIncomingReport (destination : Place) (normalReport : Option Operand)
  | anonymousCallable (key : AnonymousCallableReference)
  | declaredCallable (callable : CallableReference)
  | store (destination : Place) (value : Operand)
  | borrow (place : Place)
  | traitView (operand : Operand)
  | traitViewMethod (operand : Operand)
  | unary (operand : Operand)
  | binary (left right : Operand)
  | aggregate (kind : AggregateKind) (operands : List Operand)
  | construct (construction : Construction)
  | convert (operand : Operand) (sourceType targetType : TypeId)
  | numericConversion (operand : Operand)
  | nullableQuery (query : NullableQuery)
  | patternProjection (subject : Operand)
  | call (call : Call)
  | memory (operation : MemoryOperation)
  | text (operation : TextOperation)
  | panicReport (cause : PanicCause)
  | admitOutgoing (owner : OutgoingOwner) (runtime : RuntimeReference)
  | dischargeOutgoing (owner : OutgoingOwner) (runtime : RuntimeReference)
  | quiesce (place : Place) (collection : Option CleanupCollection)
  | releaseBuffer (place : Place) (collection : Option CleanupCollection)
  | destroy (place : Place) (collection : Option CleanupCollection) (abandoned : Option Operand)
  | cleanup (phase : CleanupPhase) (place : Place) (collection : Option CleanupCollection)
  | async (operation : AsyncOperation)
  | host (operation : HostOperation)

namespace OperationKind

def cleanupCollection : OperationKind → Option CleanupCollection
  | .quiesce _ collection | .releaseBuffer _ collection | .destroy _ collection _
  | .cleanup _ _ collection => collection
  | _ => none

def inputPreservedOnRejection : OperationKind → Option Operand
  | .async (.startTask value _ _) => some value
  | .async (.createFrame (.taskObservation task _ _)) => some task
  | _ => none

end OperationKind

/-- `MirOperation` -/
structure Operation where
  kind : OperationKind
  result : Option ValueId

/-! ## 4. Control flow -/

/-- `MirEdge` -/
structure Edge where
  target : BlockId
  arguments : List Operand

/-- `MirCleanupEdge` -/
structure CleanupEdge where
  phase : CleanupPhase
  edge : Edge

/-- `MirCallFailureEdge` -/
structure CallFailureEdge where
  target : BlockId
  report : Place

/-- `MirSwitchCase` -/
structure SwitchCase where
  value : Symbol
  edge : Edge

/-- `MirRunResultEdges` -/
structure RunResultEdges where
  completed : Edge
  panicked : CleanupEdge
  cancelled : CleanupEdge

/-- `MirSuspensionKind` -/
inductive SuspensionKind where
  | awaited | yield | taskEvent
  deriving DecidableEq

/-- `MirInlineAssemblyTerminator` -/
structure InlineAssemblyTerminator where
  contract : InlineAssemblyContract
  inputs : Operand
  inputsType : TypeId
  outputType : TypeId
  normal : BlockId
  alternates : List BlockId
  symbols : List CallableReference

/-- `MirTerminatorKind` -/
inductive TerminatorKind where
  | goto (edge : Edge)
  | branch (condition : Operand) (thenEdge elseEdge : Edge)
  | patternBranch (subject : Operand) (matched unmatched : Edge)
  | rangeIterate (cursor : Place) (elementType : TypeId) (item : BlockId) (exhausted : Edge)
  | switch (discriminant : Operand) (cases : List SwitchCase) (otherwise : Edge)
  | inlineAssembly (assembly : InlineAssemblyTerminator)
  | return (value report : Option Operand)
  | unreachable
  | suspend (kind : SuspensionKind) (payload : Option Operand) (resumeState : FrameStateId) (resume : Edge)
    (cancellation : CleanupEdge) (registration wake : RuntimeReference)
  | forwardRunResult (result : Operand) (edges : RunResultEdges)
  | takeCallReport (completed : Edge) (report : Place)
  | checkCallOutcome (completed : Edge) (completedReport : Option Place)
    (panicked cancelled : CallFailureEdge)
  | beginCleanup (edge : CleanupEdge)
  | continueCleanup (edge : CleanupEdge)
  | panic (report : Operand) (cleanup : CleanupEdge)
  | propagatePanic (report : Operand) (runtime : RuntimeReference)
  | propagateCancellation (report : Operand) (runtime : RuntimeReference)
  | cancelCurrentRun (cleanup : CleanupEdge)

/-- `MirBlockKind` -/
inductive BlockKind where
  | ordinary
  | cleanupBroadcast
  | lifecycleResolution
  deriving DecidableEq

/-- `MirBlock` -/
structure Block where
  kind : BlockKind
  parameters : List ValueId
  operations : List OperationId
  terminator : TerminatorKind

/-! ## 5. Units -/

/-- `MirUnitKind` -/
inductive UnitKind where
  | synchronous
  | protectedAsyncFrame (frame : Symbol)
  | executableHost (host : ExecutableHostContract)
  deriving DecidableEq

/-- `MirUnitKind::protected_frame` -/
def UnitKind.protectedFrame : UnitKind → Option Symbol
  | .protectedAsyncFrame frame => some frame
  | .synchronous | .executableHost _ => none

/-- `MirUnit`. Of the target contract, `runtimeAbi`. -/
structure MirUnit where
  unit : UnitId
  runtimeAbi : RuntimeAbiVersion
  kind : UnitKind
  frameDescriptor : Option FrameDescriptor
  cleanupContinuation : Option CleanupContinuation
  entry : BlockId
  blocks : List Block
  operations : List Operation
  storages : List Storage
  values : List Value

namespace MirUnit

/-- `local_index` -/
def localIndex (mir : MirUnit) (unit : UnitId) (slot : UInt32) : Option Nat :=
  if unit = mir.unit then some slot.toNat else none

def block (mir : MirUnit) (id : BlockId) : Option Block :=
  (mir.localIndex id.unit id.slot).bind (mir.blocks[·]?)

def operation (mir : MirUnit) (id : OperationId) : Option Operation :=
  (mir.localIndex id.unit id.slot).bind (mir.operations[·]?)

def storage (mir : MirUnit) (id : StorageId) : Option Storage :=
  (mir.localIndex id.unit id.slot).bind (mir.storages[·]?)

def value (mir : MirUnit) (id : ValueId) : Option Value :=
  (mir.localIndex id.unit id.slot).bind (mir.values[·]?)

/-- `resolve_operand_type` -/
def operandType (mir : MirUnit) : Operand → Option TypeId
  | .value id => (mir.value id).map (·.ty)
  | .copy place | .move place => some place.ty
  | .constant _ ty | .constantTerm _ ty | .immediate _ ty => some ty

end MirUnit

end Bray.Mir
