/-
  File:      Bray/Flow/Operation.lean
  Subject:   OPERATIONS of the analysed blocks (`analysis/model.rs`, `bray-bound-tree/src/node/id.rs`).

  Node ids are the slots of one bound unit. An operation is given by its kind; its program points and its
  cleanup suspension are read by no analysis here.
-/
import Bray.Flow.FixedPoint

namespace Bray.Flow

/-- `AnyBoundNodeId`, in one unit. -/
inductive AnyBoundNodeId where
  | expression (slot : Nat)
  | pattern (slot : Nat)
  | block (slot : Nat)
  | callableBody (slot : Nat)
  deriving DecidableEq

/-- `BoundExecutionSite` -/
inductive BoundExecutionSite where
  | node (node : AnyBoundNodeId)
  | cleanup (node : AnyBoundNodeId)
  | callInput (slot : Nat) (ordinal : Nat)
  | iterate (slot : Nat)
  | next (slot : Nat)
  | scopedEnter (slot : Nat)
  | scopedExit (slot : Nat)
  deriving DecidableEq

/-- `BoundExecutionSite::node` -/
def BoundExecutionSite.owner : BoundExecutionSite → AnyBoundNodeId
  | .node id | .cleanup id => id
  | .callInput slot _ | .iterate slot | .next slot | .scopedEnter slot | .scopedExit slot => .expression slot

/-- `expression().is_some()` -/
def BoundExecutionSite.isExpression (site : BoundExecutionSite) : Bool :=
  match site.owner with
  | .expression _ => true
  | _ => false

/-- `StorageScope` -/
inductive StorageScope where
  | block (slot : Nat)
  | iteration (slot : Nat)

def StorageScope.node : StorageScope → AnyBoundNodeId
  | .block slot => .block slot
  | .iteration slot => .expression slot

inductive AnalysisResultPhase where
  | start
  | completion

inductive AnalysisCallPhase where
  | input
  | attempt
  | completion
  deriving DecidableEq

inductive AnalysisSuspensionKind where
  | await
  | yield
  | scopedCall

inductive AnalysisScopeExitPhase where
  | taskCancellationBroadcast
  | lifecycleResolution
  deriving DecidableEq

inductive AnalysisOperationKind where
  | bound (node : AnyBoundNodeId)
  | patternObservation (slot : Nat)
  | result (slot : Nat) (phase : AnalysisResultPhase)
  | call (invocation : BoundExecutionSite) (phase : AnalysisCallPhase)
  | suspension (occurrence : BoundExecutionSite) (kind : AnalysisSuspensionKind)
  | scopeExit (scope : StorageScope) (exit : AnyBoundNodeId) (phase : AnalysisScopeExitPhase)
    (preservesExitValue : Bool)
  | recovery (node : AnyBoundNodeId)

namespace AnalysisOperationKind

def node : AnalysisOperationKind → AnyBoundNodeId
  | .bound node | .recovery node => node
  | .patternObservation slot => .pattern slot
  | .call invocation _ => invocation.owner
  | .suspension occurrence _ => occurrence.owner
  | .result slot _ => .expression slot
  | .scopeExit scope _ _ _ => scope.node

def occurrence : AnalysisOperationKind → BoundExecutionSite
  | .call invocation _ => invocation
  | .suspension occurrence _ => occurrence
  | .scopeExit _ exit _ _ => .cleanup exit
  | kind => .node kind.node

/-- `matches!(kind, Recovery(_))` -/
def isRecovery : AnalysisOperationKind → Bool
  | .recovery _ => true
  | _ => false

end AnalysisOperationKind

end Bray.Flow
