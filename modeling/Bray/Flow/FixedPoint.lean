/-
  File:      Bray/Flow/FixedPoint.lean
  Subject:   THE FIXED-POINT SOLVER of the flow analyses (`analysis/fixed_point.rs`): the control-flow
    graph as the solver sees it, the domain it is generic over, and the worklist loop.

  The domain is a parameter, as in the source. Cancellation is asked once in every round of the loop and
  once for every incoming edge; the answers are a function of how often it was asked before, so that a
  request that is withdrawn at any moment of the run is one of them.
-/
import Mathlib

namespace Bray.Flow

/-! ## 1. Graph -/

inductive FlowDirection where
  | forward
  | backward

/-- The other direction: where the state of a block comes from. -/
def FlowDirection.reverse : FlowDirection → FlowDirection
  | .forward => .backward
  | .backward => .forward

inductive EdgeKind where
  | sequential | conditionalTrue | conditionalFalse | matchArm | matchNoMatch
  | loopEntry | loopBack | loopBreak | loopContinue
  | «return» | divergence
  | resultSuccess | resultErrorPropagation
  | runResultCompleted | runResultPanicked | runResultCancelled
  | nullablePresent | nullableAbsent
  | «catch» | panic | suspension | resume
  | entryCancellation | runCancellation
  | scopeExit | yield | recovery
  deriving DecidableEq

/-- The kinds on which a block keeps what it had accumulated. -/
def EdgeKind.closesLoop : EdgeKind → Bool
  | .loopBack | .loopContinue => true
  | _ => false

/-- An edge. What else an edge carries (refinements, guards) is found through its id by the domain. -/
structure Edge (blocks : Nat) where
  id : Nat
  source : Fin blocks
  target : Fin blocks
  kind : EdgeKind
  deriving DecidableEq

def Edge.traversalTarget {blocks : Nat} (edge : Edge blocks) : FlowDirection → Fin blocks
  | .forward => edge.target
  | .backward => edge.source

structure ControlFlowGraph where
  blocks : Nat
  entry : Fin blocks
  edges : List (Edge blocks)
  /-- The blocks of the exits. -/
  exits : List (Fin blocks)
  componentOrder : Fin blocks → Nat

namespace ControlFlowGraph

variable (graph : ControlFlowGraph)

def successors (block : Fin graph.blocks) : List (Edge graph.blocks) :=
  graph.edges.filter fun edge => edge.source = block

def predecessors (block : Fin graph.blocks) : List (Edge graph.blocks) :=
  graph.edges.filter fun edge => edge.target = block

def traversalEdges (block : Fin graph.blocks) : FlowDirection → List (Edge graph.blocks)
  | .forward => graph.successors block
  | .backward => graph.predecessors block

def boundaryBlocks : FlowDirection → List (Fin graph.blocks)
  | .forward => [graph.entry]
  | .backward => graph.exits

/-- The edges of a block in one direction are those that lead out of it the other way. -/
theorem mem_traversalEdges (edge : Edge graph.blocks) (block : Fin graph.blocks) (direction : FlowDirection) :
    edge ∈ graph.traversalEdges block direction ↔
      edge ∈ graph.edges ∧ edge.traversalTarget direction.reverse = block := by
  cases direction <;>
    simp [traversalEdges, successors, predecessors, Edge.traversalTarget, FlowDirection.reverse]

end ControlFlowGraph

/-! ## 2. Domain -/

/-- `FixedPointDomain`. The operations that write through a reference return the written state; the
solver does not use the flag they return beside it. -/
structure FixedPointDomain (graph : ControlFlowGraph) (State : Type) where
  direction : FlowDirection
  initial : Fin graph.blocks → State
  shouldSeed : Fin graph.blocks → Bool
  boundary : State
  merge : Option (Fin graph.blocks) → State → State → State
  transfer : Fin graph.blocks → State → State
  /-- What the target state becomes when the source state is carried over the edge. -/
  propagate : State → Edge graph.blocks → State → State
  convergenceBound : Nat

inductive FixedPointOutcome (α : Type) where
  | complete (result : α)
  | cancelled
  | convergenceInvariantViolated
  deriving DecidableEq

def FixedPointOutcome.map {α β : Type} (f : α → β) : FixedPointOutcome α → FixedPointOutcome β
  | .complete result => .complete (f result)
  | .cancelled => .cancelled
  | .convergenceInvariantViolated => .convergenceInvariantViolated

/-! ## 3. Worklist -/

/-- `usize::MAX` on the supported hosts. -/
def usizeMax : Nat := 2 ^ 64 - 1

section Worklist

variable {blocks : Nat}

/-- The insertion of a `BTreeSet<(usize, AnalysisBlockId)>`, in ascending order. -/
def insertPending (entry : Nat × Fin blocks) : List (Nat × Fin blocks) → List (Nat × Fin blocks)
  | [] => [entry]
  | head :: rest =>
    if entry = head then head :: rest
    else if entry.1 < head.1 ∨ entry.1 = head.1 ∧ entry.2 < head.2 then entry :: head :: rest
    else head :: insertPending entry rest

theorem mem_insertPending (entry other : Nat × Fin blocks) (worklist : List (Nat × Fin blocks)) :
    other ∈ insertPending entry worklist ↔ other = entry ∨ other ∈ worklist := by
  induction worklist with
  | nil => simp [insertPending]
  | cons head rest ih =>
    unfold insertPending
    split
    · next same => simp [same]
    split
    · simp
    · simp only [List.mem_cons, ih]
      exact or_left_comm

end Worklist

namespace FixedPointDomain

variable {graph : ControlFlowGraph} {State : Type} (domain : FixedPointDomain graph State)

/-- `enqueue`: components in order forwards, in the opposite order backwards. -/
def enqueue (block : Fin graph.blocks) (worklist : List (Nat × Fin graph.blocks)) : List (Nat × Fin graph.blocks) :=
  let rank := graph.componentOrder block
  let priority := match domain.direction with
    | .forward => rank
    | .backward => usizeMax - rank
  insertPending (priority, block) worklist

/-- The blocks that wait, whatever their priority. -/
def Pending (block : Fin graph.blocks) (worklist : List (Nat × Fin graph.blocks)) : Prop :=
  ∃ priority, (priority, block) ∈ worklist

theorem pending_enqueue (block other : Fin graph.blocks) (worklist : List (Nat × Fin graph.blocks)) :
    Pending other (domain.enqueue block worklist) ↔ other = block ∨ Pending other worklist := by
  constructor
  · intro ⟨priority, listed⟩
    rcases (mem_insertPending _ _ _).mp listed with same | listed
    · exact .inl (Prod.mk.inj same).2
    · exact .inr ⟨priority, listed⟩
  · intro cases
    rcases cases with same | ⟨priority, listed⟩
    · exact ⟨_, (mem_insertPending _ _ _).mpr (.inl (by rw [same]))⟩
    · exact ⟨priority, (mem_insertPending _ _ _).mpr (.inr listed)⟩

/-- Enqueues the blocks of a list, one after the other. -/
def enqueueAll (targets : List (Fin graph.blocks)) (worklist : List (Nat × Fin graph.blocks)) :
  List (Nat × Fin graph.blocks) :=
  targets.foldl (fun worklist block => domain.enqueue block worklist) worklist

theorem pending_enqueueAll (targets : List (Fin graph.blocks)) (other : Fin graph.blocks) :
    ∀ worklist : List (Nat × Fin graph.blocks),
      Pending other (domain.enqueueAll targets worklist) ↔ other ∈ targets ∨ Pending other worklist := by
  induction targets with
  | nil => simp [enqueueAll]
  | cons block rest ih =>
    intro worklist
    rw [enqueueAll, List.foldl_cons, ← enqueueAll, ih, pending_enqueue, List.mem_cons, or_assoc, or_left_comm]

/-! ## 4. Solver -/

/-- What the loop of `solve_fixed_point` keeps between two rounds. `ticks` counts how often cancellation
was asked. -/
structure Machine (graph : ControlFlowGraph) (State : Type) where
  states : Fin graph.blocks → State
  outputs : Fin graph.blocks → Option State
  worklist : List (Nat × Fin graph.blocks)
  updates : Nat
  ticks : Nat

def isBoundary (block : Fin graph.blocks) : Bool :=
  graph.boundaryBlocks domain.direction |>.contains block

/-- The machine before the first round. -/
def start : Machine graph State where
  states := domain.initial
  outputs := fun _ => none
  worklist := domain.enqueueAll
    ((List.finRange graph.blocks).filter fun block => domain.isBoundary block || domain.shouldSeed block) []
  updates := 0
  ticks := 0

variable (isCancelled : Nat → Bool)

/-- The loop of `incoming_state` over the incoming edges. `none`: the request was cancelled. -/
def joinIncoming (outputs : Fin graph.blocks → Option State) :
  List (Edge graph.blocks) → Nat → Bool → State → Option (Nat × Bool × State)
  | [], ticks, cyclic, incoming => some (ticks, cyclic, incoming)
  | edge :: rest, ticks, cyclic, incoming =>
    if isCancelled ticks then none
    else
      let cyclic := cyclic || edge.kind.closesLoop
      match outputs (edge.traversalTarget domain.direction.reverse) with
      | some output => joinIncoming outputs rest (ticks + 1) cyclic (domain.propagate output edge incoming)
      | none => joinIncoming outputs rest (ticks + 1) cyclic incoming

/-- `incoming_state`, with the number of times cancellation was asked. -/
def incomingState (block : Fin graph.blocks) (outputs : Fin graph.blocks → Option State) (previous : State)
  (ticks : Nat) : Option (Nat × State) := do
  let incoming := domain.initial block
  let incoming := if domain.isBoundary block then domain.merge none incoming domain.boundary else incoming
  let edges := graph.traversalEdges block domain.direction.reverse
  let (ticks, cyclic, incoming) ← domain.joinIncoming isCancelled outputs edges ticks false incoming
  -- Loop headers retain their accumulated approximation.
  return (ticks, if cyclic then domain.merge (some block) incoming previous else incoming)

variable [DecidableEq State]

/-- One round of the loop, on the block that was taken from the worklist. -/
def round (machine : Machine graph State) (block : Fin graph.blocks) : FixedPointOutcome (Machine graph State) :=
  if isCancelled machine.ticks then .cancelled
  else
    match domain.incomingState isCancelled block machine.outputs (machine.states block) (machine.ticks + 1) with
    | none => .cancelled
    | some (ticks, incoming) =>
      let changed := machine.states block != incoming
      if !changed && (machine.outputs block).isSome then .complete { machine with ticks := ticks }
      else
        let states := Function.update machine.states block incoming
        let output := domain.transfer block incoming
        if machine.outputs block = some output then
          .complete { machine with states := states, ticks := ticks }
        else
          let updates := min (machine.updates + changed.toNat) usizeMax
          if domain.convergenceBound < updates then .convergenceInvariantViolated
          else
            let targets := (graph.traversalEdges block domain.direction).map
              fun edge => edge.traversalTarget domain.direction
            .complete
              { states := states
                outputs := Function.update machine.outputs block (some output)
                worklist := domain.enqueueAll targets machine.worklist
                updates := updates
                ticks := ticks }

/-- The loop of `solve_fixed_point`, for at most the given number of rounds. -/
def solveLoop : Nat → Machine graph State → Option (FixedPointOutcome (Machine graph State))
  | 0, _ => none
  | fuel + 1, machine =>
    match machine.worklist with
    | [] => some (.complete machine)
    | (_, block) :: rest =>
      match domain.round isCancelled { machine with worklist := rest } block with
      | .complete machine => solveLoop fuel machine
      | .cancelled => some .cancelled
      | .convergenceInvariantViolated => some .convergenceInvariantViolated

/-- `solve_fixed_point`: a complete run returns the states. -/
def solveFixedPoint (fuel : Nat) : Option (FixedPointOutcome (Fin graph.blocks → State)) :=
  (domain.solveLoop isCancelled fuel domain.start).map (·.map Machine.states)

end FixedPointDomain

end Bray.Flow
