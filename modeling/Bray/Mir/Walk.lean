/-
  File:      Bray/Mir/Walk.lean
  Subject:   THE WALKS (bray-ir/walk.rs, control.rs): what an operation and a terminator read and name.

  The source visits with a callback; here a walk is the list of what it visits, in its order. The
  operands of a place are the selectors inside its projections, so a walk over operands also reaches
  the values that only select an element or a range.
-/
import Bray.Mir.Operation

namespace Bray.Mir

/-! ## 1. Operands and places -/

mutual

/-- `visit_operand`: nested selectors before the operand itself. -/
def visitOperand : Operand → List Operand
  | .copy place => visitPlaceOperands place ++ [.copy place]
  | .move place => visitPlaceOperands place ++ [.move place]
  | .value id => [.value id]
  | .constant value ty => [.constant value ty]
  | .constantTerm term ty => [.constantTerm term ty]
  | .immediate value ty => [.immediate value ty]

/-- `visit_place_operands` -/
def visitPlaceOperands : Place → List Operand
  | .mk _ projections _ => visitProjections projections

/-- The loop of `visit_place_operands`. -/
def visitProjections : List Projection → List Operand
  | [] => []
  | projection :: rest => visitProjection projection ++ visitProjections rest

/-- One round of that loop. -/
def visitProjection : Projection → List Operand
  | .mk kind _ _ => visitProjectionKind kind

def visitProjectionKind : ProjectionKind → List Operand
  | .index operand => visitOperand operand
  | .slice start stop => visitBound start ++ visitBound stop
  | .dereference | .field _ | .tupleField _ | .elementFromStart _ | .elementFromEnd _ | .variant _
  | .activeUnionPayloadField _ _ | .activeUnionPayloadElement _ _ | .nullableValue | .ownedStorage => []

/-- One bound of a slice. -/
def visitBound : Option Operand → List Operand
  | none => []
  | some operand => visitOperand operand

end

def Operand.valueId : Operand → Option ValueId
  | .value id => some id
  | _ => none

/-- `visit_operand_root`: the storage an operand reads, where it reads one. -/
def visitOperandRoot : Operand → List StorageId
  | .copy place | .move place => [place.storage]
  | _ => []

/-! ## 2. Operations -/

/-- `visit_call_operands` -/
def visitCallOperands (call : Call) : List Operand :=
  (match call.target with
    | .indirect callee _ => visitOperand callee
    | _ => [])
  ++ call.arguments.flatMap fun argument => visitOperand argument.value

/-- `visit_async_operands` -/
def visitAsyncOperands : AsyncOperation → List Operand
  | .createFrame (.callable call) => visitCallOperands call
  | .createFrame (.taskObservation task _ _) => visitOperand task
  | .moveInactiveFrame source destination => visitPlaceOperands source ++ visitPlaceOperands destination
  | .composeAwaitedFrame _ _ frame _ => visitOperand frame
  | .startTask value _ _ => visitOperand value
  | .destroyTerminalTask task => visitOperand task
  | .requestTaskCancellation task _ | .resolveTask task _ => visitPlaceOperands task
  | .publishTerminalState state _ => state.operands.flatMap visitOperand
  | .transferCleanupIncident incident report _ => visitPlaceOperands incident ++ visitPlaceOperands report
  | .resumeFrame _ _ _ _ | .commitAwaitedCompletion _ | .observeFrameCancellation
  | .observeCurrentRunCancellation _ => []
  | .broadcastInactiveFrame frame _ | .resolveInactiveFrame frame _ | .destroyInactiveFrame frame _ =>
    visitOperand frame

def visitOwner : OutgoingOwner → List Operand
  | .frameFactory callee => visitOperand callee
  | .value _ | .invocation _ _ => []

namespace OperationKind

/-- The match of `for_each_operand`, without the collection that stands before it. -/
def ownOperands : OperationKind → List Operand
  | .store destination value => visitPlaceOperands destination ++ visitOperand value
  | .takeIncomingReport destination normalReport =>
    visitPlaceOperands destination ++ normalReport.toList.flatMap visitOperand
  | .borrow place | .quiesce place _ | .releaseBuffer place _ | .cleanup _ place _ =>
    visitPlaceOperands place
  | .destroy place _ abandoned => visitPlaceOperands place ++ abandoned.toList.flatMap visitOperand
  | .traitView operand | .traitViewMethod operand | .unary operand | .convert operand _ _
  | .numericConversion operand => visitOperand operand
  | .binary left right => visitOperand left ++ visitOperand right
  | .aggregate _ operands => operands.flatMap visitOperand
  | .construct construction => construction.inputs.flatMap fun input => visitOperand input.value
  | .nullableQuery query => visitOperand query.operand
  | .patternProjection subject => visitOperand subject
  | .call made => visitCallOperands made
  | .memory operation => operation.operands.flatMap visitOperand
  | .text operation => operation.operands.flatMap visitOperand
  | .panicReport (.message operand) | .panicReport (.explicitTestFailure operand) => visitOperand operand
  | .panicReport (.assertion message) => message.toList.flatMap visitOperand
  | .panicReport .memoryLayoutSizeOverflow | .panicReport .memoryLayoutUnsupportedAlignment => []
  | .async operation => visitAsyncOperands operation
  | .host (.materializeStatic place) => visitPlaceOperands place
  | .host _ => []
  | .admitOutgoing owner _ | .dischargeOutgoing owner _ => visitOwner owner
  | .anonymousCallable _ | .declaredCallable _ => []

/-- `for_each_operand` -/
def operands (kind : OperationKind) : List Operand :=
  (kind.cleanupCollection.toList.flatMap fun collection => collection.places.flatMap visitPlaceOperands)
    ++ kind.ownOperands

/-- The match of `for_each_operation_storage`: storages addressed and not read as operands. -/
def ownStorages : OperationKind → List StorageId
  | .takeIncomingReport destination _ | .store destination _ | .borrow destination
  | .quiesce destination _ | .releaseBuffer destination _ | .destroy destination _ _
  | .cleanup _ destination _ | .host (.materializeStatic destination) => [destination.storage]
  | .async (.moveInactiveFrame source destination) => [source.storage, destination.storage]
  | .async (.resumeFrame _ _ storage _) => [storage]
  | .async (.composeAwaitedFrame _ _ _ composition) => composition.completion?.toList
  | .async (.commitAwaitedCompletion completion) => completion.toList
  | .async (.transferCleanupIncident incident report _) => [incident.storage, report.storage]
  | .async (.resolveTask task _) | .async (.requestTaskCancellation task _) => [task.storage]
  | _ => []

/-- `for_each_operation_storage` -/
def storages (kind : OperationKind) : List StorageId :=
  kind.operands.flatMap visitOperandRoot
    ++ (kind.cleanupCollection.toList.flatMap fun collection =>
      collection.places.map Place.storage
        ++ collection.retention.toList.flatMap FrameRetention.initializedStorages)
    ++ kind.ownStorages

/-- `for_each_retained_block` -/
def retainedBlocks (kind : OperationKind) : List BlockId :=
  (kind.cleanupCollection.bind CleanupCollection.retention).toList.map FrameRetention.broadcast

def reads (kind : OperationKind) : List ValueId :=
  kind.operands.filterMap Operand.valueId

end OperationKind

/-! ## 3. Terminators -/

namespace TerminatorKind

/-- `for_each_input`: what is evaluated before a successor is selected. -/
def inputs : TerminatorKind → List Operand
  | .branch condition _ _ => visitOperand condition
  | .patternBranch subject _ _ => visitOperand subject
  | .switch discriminant _ _ => visitOperand discriminant
  | .inlineAssembly assembly => visitOperand assembly.inputs
  | .return value report => (value.toList ++ report.toList).flatMap visitOperand
  | .suspend _ payload _ _ _ _ _ => payload.toList.flatMap visitOperand
  | .forwardRunResult result _ => visitOperand result
  | .takeCallReport _ report => visitPlaceOperands report
  | .panic report _ | .propagatePanic report _ | .propagateCancellation report _ => visitOperand report
  | .rangeIterate cursor _ _ _ => visitPlaceOperands cursor
  | .checkCallOutcome _ completedReport panicked cancelled =>
    ([panicked.report, cancelled.report] ++ completedReport.toList).flatMap visitPlaceOperands
  | .goto _ | .unreachable | .beginCleanup _ | .continueCleanup _ | .cancelCurrentRun _ => []

/-- `try_for_each_edge_mut`: the explicit edges, in selection order. -/
def edges : TerminatorKind → List Edge
  | .goto edge => [edge]
  | .branch _ thenEdge elseEdge => [thenEdge, elseEdge]
  | .patternBranch _ matched unmatched => [matched, unmatched]
  | .rangeIterate _ _ _ exhausted => [exhausted]
  | .switch _ cases otherwise => cases.map SwitchCase.edge ++ [otherwise]
  | .suspend _ _ _ resume cancellation _ _ => [resume, cancellation.edge]
  | .forwardRunResult _ edges => [edges.completed, edges.panicked.edge, edges.cancelled.edge]
  | .checkCallOutcome completed _ _ _ | .takeCallReport completed _ => [completed]
  | .beginCleanup cleanup | .continueCleanup cleanup | .panic _ cleanup | .cancelCurrentRun cleanup =>
    [cleanup.edge]
  | .inlineAssembly _ | .return _ _ | .unreachable | .propagatePanic _ _ | .propagateCancellation _ _ => []

/-- Everything a terminator evaluates, edge arguments included. -/
def operands (terminator : TerminatorKind) : List Operand :=
  terminator.inputs ++ terminator.edges.flatMap fun edge => edge.arguments.flatMap visitOperand

/-- The match of `for_each_terminator_storage`, without the edge arguments. -/
def ownStorages : TerminatorKind → List StorageId
  | .rangeIterate cursor _ _ _ => [cursor.storage]
  | .takeCallReport _ report => [report.storage]
  | .checkCallOutcome _ completedReport panicked cancelled =>
    completedReport.toList.map Place.storage ++ [panicked.report.storage, cancelled.report.storage]
  | _ => []

/-- `for_each_terminator_storage` -/
def storages (terminator : TerminatorKind) : List StorageId :=
  terminator.operands.flatMap visitOperandRoot ++ terminator.ownStorages

def reads (terminator : TerminatorKind) : List ValueId :=
  terminator.operands.filterMap Operand.valueId

end TerminatorKind

end Bray.Mir
