/-
  File:      Bray/Flow/Reachability.lean
  Subject:   REACHABILITY (`analysis/reachability.rs`): which blocks and edges control reaches, cleanly or
    through recovery, and how a unit completes.

  The states are two bits: a clean path arrives, a recovered path arrives. A block with a recovery
  operation and an edge of the recovery kind turn what is clean into what is recovered; an excluded edge
  carries nothing.

  * **`analyzeReachability_exact`** -- the bits are exactly the paths from the entry, the convergence
    bound of twice the number of blocks is never exceeded, and the analysis returns.
-/
import Bray.Flow.Height
import Bray.Flow.Operation

namespace Bray.Flow

/-! ## 1. States -/

structure ReachabilityState where
  clean : Bool
  recovered : Bool
  deriving DecidableEq

namespace ReachabilityState

def isClean (state : ReachabilityState) : Bool := state.clean

def isRecovered (state : ReachabilityState) : Bool := state.recovered

def isReachable (state : ReachabilityState) : Bool := state.clean || state.recovered

def afterRecovery (state : ReachabilityState) : ReachabilityState where
  clean := false
  recovered := state.clean || state.recovered

/-- `merge_state` -/
instance : Max ReachabilityState where
  max target incoming := ⟨target.clean || incoming.clean, target.recovered || incoming.recovered⟩

theorem max_eq (target incoming : ReachabilityState) :
  target ⊔ incoming = ⟨target.clean || incoming.clean, target.recovered || incoming.recovered⟩ := rfl

instance : SemilatticeSup ReachabilityState :=
  SemilatticeSup.mk'
    (fun a b => by simp only [max_eq, Bool.or_comm])
    (fun a b c => by simp only [max_eq, Bool.or_assoc])
    (fun a => by simp only [max_eq, Bool.or_self])

theorem le_iff {a b : ReachabilityState} :
    a ≤ b ↔ (a.clean = true → b.clean = true) ∧ (a.recovered = true → b.recovered = true) := by
  rw [← sup_eq_right, max_eq]
  rcases a with ⟨c, r⟩
  rcases b with ⟨c', r'⟩
  cases c <;> cases r <;> cases c' <;> cases r' <;> decide

/-- How many of the bits are set. -/
def rank (state : ReachabilityState) : Nat := state.clean.toNat + state.recovered.toNat

theorem rank_ranked : FixedPointDomain.Ranked rank 2 where
  rises := by
    intro a b lower
    obtain ⟨larger, not_back⟩ := lt_iff_le_not_ge.mp lower
    rw [le_iff] at larger not_back
    rcases a with ⟨c, r⟩
    rcases b with ⟨c', r'⟩
    revert larger not_back
    cases c <;> cases r <;> cases c' <;> cases r' <;> decide
  bounded := by
    intro ⟨c, r⟩
    cases c <;> cases r <;> decide

theorem afterRecovery_mono : Monotone afterRecovery := by
  intro a b larger
  obtain ⟨clean, recovered⟩ := le_iff.mp larger
  refine le_iff.mpr ⟨id, ?_⟩
  simp only [afterRecovery, Bool.or_eq_true]
  exact Or.imp clean recovered

end ReachabilityState

/-! ## 2. Analysis -/

section Analysis

variable (graph : ControlFlowGraph) (operations : Fin graph.blocks → List AnalysisOperationKind)
  (excluded : Finset Nat)

def blockHasRecovery (block : Fin graph.blocks) : Bool :=
  (operations block).any AnalysisOperationKind.isRecovery

/-- `ReachabilityDomain` -/
def reachabilityDomain : FixedPointDomain graph ReachabilityState where
  direction := .forward
  initial := fun _ => ⟨false, false⟩
  shouldSeed := fun _ => false
  boundary := ⟨true, false⟩
  merge := fun _ target incoming => target ⊔ incoming
  transfer := fun block state => if blockHasRecovery graph operations block then state.afterRecovery else state
  propagate := fun source edge target =>
    if edge.id ∈ excluded then target
    else target ⊔ if edge.kind = .recovery then source.afterRecovery else source
  convergenceBound := min (graph.blocks * 2) usizeMax

inductive AnalysisExitKind where
  | normalFallthrough | «return» | resultErrorPropagation | divergence
  | panic | cancellation | yield | recovery
  deriving DecidableEq

inductive ControlCompletionKind where
  | normal | «return» | propagation | divergence
  | panic | cancellation | yield | recovered

def completionKind : AnalysisExitKind → ControlCompletionKind
  | .normalFallthrough => .normal
  | .return => .return
  | .resultErrorPropagation => .propagation
  | .divergence => .divergence
  | .panic => .panic
  | .cancellation => .cancellation
  | .yield => .yield
  | .recovery => .recovered

variable {graph} in
/-- `collect_completion`: the kinds that the mask of the completion is made of. -/
def collectCompletion (exits : List (Fin graph.blocks × AnalysisExitKind))
  (states : Fin graph.blocks → ReachabilityState) : List ControlCompletionKind :=
  exits.flatMap fun exit =>
    (if (states exit.1).isClean && exit.2 != .recovery then [completionKind exit.2] else []) ++
      if (states exit.1).isRecovered || exit.2 == .recovery then [.recovered] else []

structure ReachabilityResult where
  reachableBlocks : Fin graph.blocks → Bool
  reachableEdges : Edge graph.blocks → Bool
  completion : List ControlCompletionKind

/-- `analyze_reachability_excluding`, with the states it reads the result from. A bound that is exceeded
is a panic. -/
def analyzeReachability (exits : List (Fin graph.blocks × AnalysisExitKind)) (isCancelled : Nat → Bool)
  (fuel : Nat) :
  Option (FixedPointOutcome ((Fin graph.blocks → ReachabilityState) × ReachabilityResult graph)) :=
  ((reachabilityDomain graph operations excluded).solveFixedPoint isCancelled fuel).map
    (·.map fun states =>
      (states,
        { reachableBlocks := fun block => (states block).isReachable
          reachableEdges := fun edge => edge.id ∉ excluded && (states edge.source).isReachable
          completion := collectCompletion exits states }))

end Analysis

/-! ## 3. Paths -/

section Paths

variable {graph : ControlFlowGraph} {operations : Fin graph.blocks → List AnalysisOperationKind}
  {excluded : Finset Nat}

/-- A path: edges of the graph that are not excluded, each from where the last one led. -/
inductive IsPath (excluded : Finset Nat) : List (Edge graph.blocks) → Fin graph.blocks → Prop where
  | entry : IsPath excluded [] graph.entry
  | step {path : List (Edge graph.blocks)} {edge : Edge graph.blocks} (before : IsPath excluded path edge.source)
    (listed : edge ∈ graph.edges) (open_ : edge.id ∉ excluded) : IsPath excluded (path ++ [edge]) edge.target

/-- A step through recovery: the edge is of that kind, or the block that it leaves has an operation that
is. -/
def Edge.recovers (operations : Fin graph.blocks → List AnalysisOperationKind) (edge : Edge graph.blocks) : Prop :=
  edge.kind = .recovery ∨ blockHasRecovery graph operations edge.source = true

/-- What an edge carries. -/
def reachabilityAlong (excluded : Finset Nat) (edge : Edge graph.blocks) (state : ReachabilityState) :
  WithBot ReachabilityState :=
  if edge.id ∈ excluded then ⊥ else if edge.kind = .recovery then state.afterRecovery else state

theorem reachabilityDomain_lawful :
  (reachabilityDomain graph operations excluded).Lawful (reachabilityAlong excluded) where
  merge_eq := fun _ _ _ => rfl
  propagate_eq := by
    intro source edge target
    show ((ite _ _ _ : ReachabilityState) : WithBot ReachabilityState) = _
    unfold reachabilityAlong
    split
    · rw [sup_bot_eq]
    split
    · rfl
    · rfl
  transfer_mono := by
    intro block a b larger
    show ite _ _ _ ≤ ite _ _ _
    split
    · exact ReachabilityState.afterRecovery_mono larger
    · exact larger
  along_mono := by
    intro edge a b larger
    unfold reachabilityAlong
    split
    · exact le_rfl
    split
    · exact WithBot.coe_le_coe.mpr (ReachabilityState.afterRecovery_mono larger)
    · exact WithBot.coe_le_coe.mpr larger

/-- What an open edge carries out of a block: the state itself, or the state after recovery if the step is
one through recovery. -/
theorem along_transfer {edge : Edge graph.blocks} (open_ : edge.id ∉ excluded) (state : ReachabilityState) :
    (∃ carried : ReachabilityState,
      reachabilityAlong excluded edge ((reachabilityDomain graph operations excluded).transfer edge.source state) =
        carried ∧ (carried.clean = true ↔ state.clean = true ∧ ¬ edge.recovers operations) ∧
      (carried.recovered = true ↔
        state.recovered = true ∨ state.clean = true ∧ edge.recovers operations)) := by
  simp only [reachabilityAlong, if_neg open_, reachabilityDomain, Edge.recovers]
  rcases state with ⟨c, r⟩
  by_cases edges : edge.kind = .recovery <;>
    by_cases blocks : blockHasRecovery graph operations edge.source = true <;>
      simp only [edges, blocks, if_true, if_false] <;>
        refine ⟨_, rfl, ?_⟩ <;> cases c <;> cases r <;>
          simp [ReachabilityState.afterRecovery]

/-! ## 4. The bits are the paths -/

variable {path : List (Edge graph.blocks)}

/-- The last step of a path through recovery is one itself, or comes after one. -/
theorem exists_recovers_append {edge : Edge graph.blocks} :
    (∃ step ∈ path ++ [edge], step.recovers operations) ↔
      (∃ step ∈ path, step.recovers operations) ∨ edge.recovers operations := by
  simp [List.mem_append, or_and_right, exists_or]

theorem forall_recovers_append {edge : Edge graph.blocks} :
    (∀ step ∈ path ++ [edge], ¬ step.recovers operations) ↔
      (∀ step ∈ path, ¬ step.recovers operations) ∧ ¬ edge.recovers operations := by
  simp [List.mem_append, or_imp, forall_and, forall_eq]

/-- The states that the paths stand for. -/
noncomputable def pathStates (operations : Fin graph.blocks → List AnalysisOperationKind) (excluded : Finset Nat)
  (block : Fin graph.blocks) : ReachabilityState :=
  open Classical in
  { clean := decide (∃ path, IsPath excluded path block ∧ ∀ edge ∈ path, ¬ edge.recovers operations)
    recovered := decide (∃ path, IsPath excluded path block ∧ ∃ edge ∈ path, edge.recovers operations) }

variable {block : Fin graph.blocks}

theorem pathStates_clean : (pathStates operations excluded block).clean = true ↔
    ∃ path, IsPath excluded path block ∧ ∀ edge ∈ path, ¬ edge.recovers operations := by
  classical exact decide_eq_true_iff

theorem pathStates_recovered : (pathStates operations excluded block).recovered = true ↔
    ∃ path, IsPath excluded path block ∧ ∃ edge ∈ path, edge.recovers operations := by
  classical exact decide_eq_true_iff

/-- The equations do not lead out of the paths. -/
theorem pathStates_closed :
    (reachabilityDomain graph operations excluded).Closed (reachabilityAlong excluded)
      (pathStates operations excluded) := by
  intro block
  refine sup_le (sup_le ?_ ?_) (Finset.sup_le fun edge incoming => ?_)
  · exact WithBot.coe_le_coe.mpr (ReachabilityState.le_iff.mpr ⟨nofun, nofun⟩)
  · split
    · next boundary =>
      have first : block = graph.entry := by
        simpa [FixedPointDomain.isBoundary, ControlFlowGraph.boundaryBlocks, reachabilityDomain] using boundary
      refine WithBot.coe_le_coe.mpr (ReachabilityState.le_iff.mpr ⟨fun _ => ?_, nofun⟩)
      exact pathStates_clean.mpr ⟨[], by rw [first]; exact .entry, nofun⟩
    · exact bot_le
  · obtain ⟨listed, target⟩ := (graph.mem_traversalEdges _ _ _).mp (List.mem_toFinset.mp incoming)
    obtain rfl : edge.target = block := target
    show reachabilityAlong excluded edge ((reachabilityDomain graph operations excluded).transfer edge.source
      (pathStates operations excluded edge.source)) ≤ _
    by_cases closed : edge.id ∈ excluded
    · rw [reachabilityAlong, if_pos closed]
      exact bot_le
    obtain ⟨carried, eq, clean, recovered⟩ := along_transfer closed (pathStates operations excluded edge.source)
    rw [eq]
    refine WithBot.coe_le_coe.mpr (ReachabilityState.le_iff.mpr ⟨fun set => ?_, fun set => ?_⟩)
    · obtain ⟨source, plain⟩ := clean.mp set
      obtain ⟨path, arrives, steps⟩ := pathStates_clean.mp source
      exact pathStates_clean.mpr ⟨_, .step arrives listed closed, forall_recovers_append.mpr ⟨steps, plain⟩⟩
    · refine pathStates_recovered.mpr ?_
      rcases recovered.mp set with source | ⟨source, through⟩
      · obtain ⟨path, arrives, steps⟩ := pathStates_recovered.mp source
        exact ⟨_, .step arrives listed closed, exists_recovers_append.mpr (.inl steps)⟩
      · obtain ⟨path, arrives, -⟩ := pathStates_clean.mp source
        exact ⟨_, .step arrives listed closed, exists_recovers_append.mpr (.inr through)⟩

variable {isCancelled : Nat → Bool} {fuel : Nat} {states : Fin graph.blocks → ReachabilityState}

theorem IsPath.reached
    (h : IsPath excluded path block) : (reachabilityDomain graph operations excluded).Reached block := by
  induction h with
  | entry =>
    refine .start ?_
    simp [FixedPointDomain.isBoundary, ControlFlowGraph.boundaryBlocks, reachabilityDomain]
  | step _ listed _ ih => exact .step listed ih

section

variable (run : (reachabilityDomain graph operations excluded).solveFixedPoint isCancelled fuel = some (.complete states))
include run

/-- A complete run has found every path: by induction on the path, over its last step. -/
theorem states_of_path
    (h : IsPath excluded path block) :
    ((∀ edge ∈ path, ¬ edge.recovers operations) → (states block).clean = true) ∧
      ((∃ edge ∈ path, edge.recovers operations) → (states block).recovered = true) := by
  induction h with
  | entry =>
    refine ⟨fun _ => ?_, fun ⟨_, mem, _⟩ => nomatch mem⟩
    have starts : (reachabilityDomain graph operations excluded).isBoundary graph.entry = true := by
      simp [FixedPointDomain.isBoundary, ControlFlowGraph.boundaryBlocks, reachabilityDomain]
    have entered := FixedPointDomain.boundary_le_states reachabilityDomain_lawful run starts
    exact (ReachabilityState.le_iff.mp entered).1 rfl
  | @step path edge before listed closed ih =>
    have arrived := FixedPointDomain.along_le_states reachabilityDomain_lawful run listed before.reached
    obtain ⟨carried, eq, clean, recovered⟩ := @along_transfer graph operations _ _ closed (states edge.source)
    obtain ⟨cleanly, through⟩ := ReachabilityState.le_iff.mp (WithBot.coe_le_coe.mp (eq ▸ arrived))
    constructor
    · intro plain
      obtain ⟨steps, last⟩ := forall_recovers_append.mp plain
      exact cleanly (clean.mpr ⟨ih.1 steps, last⟩)
    · intro recovers
      refine through (recovered.mpr ?_)
      by_cases steps : ∃ step ∈ path, step.recovers operations
      · exact .inl (ih.2 steps)
      · have last := (exists_recovers_append.mp recovers).resolve_left steps
        exact .inr ⟨ih.1 fun step mem recovers => steps ⟨step, mem, recovers⟩, last⟩

/-- The clean bit is a path without recovery. -/
theorem clean_iff
    (block : Fin graph.blocks) : (states block).clean = true ↔
      ∃ path, IsPath excluded path block ∧ ∀ edge ∈ path, ¬ edge.recovers operations := by
  have below := ReachabilityState.le_iff.mp
    (FixedPointDomain.states_le_of_closed reachabilityDomain_lawful pathStates_closed run block)
  constructor
  · intro set
    exact pathStates_clean.mp (below.1 set)
  · intro ⟨path, arrives, plain⟩
    exact (states_of_path run arrives).1 plain

/-- The recovered bit is a path through recovery. -/
theorem recovered_iff
    (block : Fin graph.blocks) : (states block).recovered = true ↔
      ∃ path, IsPath excluded path block ∧ ∃ edge ∈ path, edge.recovers operations := by
  have below := ReachabilityState.le_iff.mp
    (FixedPointDomain.states_le_of_closed reachabilityDomain_lawful pathStates_closed run block)
  constructor
  · intro set
    exact pathStates_recovered.mp (below.2 set)
  · intro ⟨path, arrives, through⟩
    exact (states_of_path run arrives).2 through

/-- One of the bits is set when any path arrives. -/
theorem isReachable_iff
    (block : Fin graph.blocks) :
    (states block).isReachable = true ↔ ∃ path, IsPath excluded path block := by
  rw [ReachabilityState.isReachable, Bool.or_eq_true, clean_iff run, recovered_iff run]
  constructor
  · intro h
    rcases h with ⟨path, arrives, -⟩ | ⟨path, arrives, -⟩
    · exact ⟨path, arrives⟩
    · exact ⟨path, arrives⟩
  · intro ⟨path, arrives⟩
    by_cases steps : ∃ step ∈ path, step.recovers operations
    · exact .inr ⟨path, arrives, steps⟩
    · exact .inl ⟨path, arrives, fun step mem recovers => steps ⟨step, mem, recovers⟩⟩

end

end Paths

/-! ## 5. Main result -/

/-- **REACHABILITY IS PATH REACHABILITY.** For every graph, all operations, excluded edges and exits:
  1. the convergence bound of twice the number of blocks is never exceeded;
  2. the analysis returns, and as cancelled only when the request was withdrawn;
  3. when it completes, a block is clean exactly when a path without recovery arrives at it, recovered
    exactly when one through recovery does, recovered and not clean exactly when paths arrive and all
    of them go through recovery, and reachable exactly when any path arrives; and an edge is reachable
    exactly when it is not excluded and a path arrives at its source. -/
theorem analyzeReachability_exact (graph : ControlFlowGraph)
    (operations : Fin graph.blocks → List AnalysisOperationKind) (excluded : Finset Nat)
    (exits : List (Fin graph.blocks × AnalysisExitKind)) (isCancelled : Nat → Bool) :
    (∀ fuel, analyzeReachability graph operations excluded exits isCancelled fuel ≠
      some .convergenceInvariantViolated) ∧ (∃ enough, ∀ fuel, enough < fuel →
      (analyzeReachability graph operations excluded exits isCancelled fuel).isSome) ∧
      (∀ fuel, analyzeReachability graph operations excluded exits isCancelled fuel = some .cancelled →
        ∃ tick, isCancelled tick = true) ∧ ∀ fuel states result,
        analyzeReachability graph operations excluded exits isCancelled fuel =
          some (.complete (states, result)) → (∀ block, ((states block).isClean = true ↔
            ∃ path, IsPath excluded path block ∧ ∀ edge ∈ path, ¬ edge.recovers operations) ∧
          ((states block).isRecovered = true ↔
            ∃ path, IsPath excluded path block ∧ ∃ edge ∈ path, edge.recovers operations) ∧
          ((states block).isRecovered = true ∧ (states block).isClean = false ↔
            (∃ path, IsPath excluded path block) ∧
              ∀ path, IsPath excluded path block → ∃ edge ∈ path, edge.recovers operations) ∧
          (result.reachableBlocks block = true ↔ ∃ path, IsPath excluded path block)) ∧
          ∀ edge, result.reachableEdges edge = true ↔
            edge.id ∉ excluded ∧ ∃ path, IsPath excluded path edge.source := by
  obtain ⟨within, returns⟩ := FixedPointDomain.solveFixedPoint_returns
    (@reachabilityDomain_lawful graph operations excluded) ReachabilityState.rank_ranked le_rfl isCancelled
  refine ⟨fun fuel run => ?_, ?_, fun fuel run => ?_, fun fuel states result run => ?_⟩
  · obtain ⟨outcome, found, mapped⟩ := Option.map_eq_some_iff.mp run
    cases outcome with
    | complete states => cases mapped
    | cancelled => cases mapped
    | convergenceInvariantViolated => exact within fuel found
  · obtain ⟨enough, returns⟩ := returns
    refine ⟨enough, fun fuel more => ?_⟩
    rw [analyzeReachability, Option.isSome_map]
    exact returns fuel more
  · obtain ⟨outcome, found, mapped⟩ := Option.map_eq_some_iff.mp run
    obtain ⟨last, loop, stopped⟩ := Option.map_eq_some_iff.mp found
    cases outcome with
    | complete states => cases mapped
    | convergenceInvariantViolated => cases mapped
    | cancelled =>
      cases last with
      | complete machine => cases stopped
      | convergenceInvariantViolated => cases stopped
      | cancelled => exact FixedPointDomain.solveLoop_cancelled loop
  · obtain ⟨outcome, found, mapped⟩ := Option.map_eq_some_iff.mp run
    cases outcome with
    | cancelled => cases mapped
    | convergenceInvariantViolated => cases mapped
    | complete solved =>
      obtain ⟨rfl, rfl⟩ := Prod.mk.inj (FixedPointOutcome.complete.inj mapped)
      refine ⟨fun block => ⟨clean_iff found block, recovered_iff found block, ?_, isReachable_iff found block⟩,
        fun edge => ?_⟩
      · have clean := clean_iff found block
        have reachable := isReachable_iff found block
        constructor
        · intro ⟨recovered, unclean⟩
          refine ⟨reachable.mp (by rw [ReachabilityState.isReachable]; exact Bool.or_eq_true _ _ ▸ .inr recovered),
            fun path arrives => ?_⟩
          refine Classical.byContradiction fun none => ?_
          have set := clean.mpr ⟨path, arrives, fun edge mem recovers => none ⟨edge, mem, recovers⟩⟩
          exact absurd (set.symm.trans unclean) nofun
        · intro ⟨⟨path, arrives⟩, through⟩
          refine ⟨(recovered_iff found block).mpr ⟨path, arrives, through path arrives⟩, ?_⟩
          refine Bool.eq_false_iff.mpr fun set => ?_
          obtain ⟨path, arrives, plain⟩ := clean.mp set
          obtain ⟨edge, mem, recovers⟩ := through path arrives
          exact plain edge mem recovers
      · rw [Bool.and_eq_true, decide_eq_true_eq, isReachable_iff found]

def recoveredBody : Fin FixedPointDomain.loopGraph.blocks → List AnalysisOperationKind :=
  ![[], [], [.recovery (.block 0)], []]

/-- On the loop with a recovered body the analysis completes, and what it says of the exit is a path. -/
theorem analyzeReachability_exact_loop : ∃ states result,
    analyzeReachability FixedPointDomain.loopGraph recoveredBody ∅ [] (fun _ => false) 20 =
      some (.complete (states, result)) ∧
      ∃ path : List (Edge FixedPointDomain.loopGraph.blocks), IsPath ∅ path (3 : Fin 4) := by
  have run : (analyzeReachability FixedPointDomain.loopGraph recoveredBody ∅ [] (fun _ => false) 20).map
    (·.map fun found => found.2.reachableBlocks (3 : Fin 4)) = some (.complete true) := by
    decide +kernel
  obtain ⟨outcome, found, listed⟩ := Option.map_eq_some_iff.mp run
  cases outcome with
  | cancelled => cases listed
  | convergenceInvariantViolated => cases listed
  | complete pair =>
    obtain ⟨states, result⟩ := pair
    obtain ⟨-, -, -, exact_⟩ :=
      analyzeReachability_exact FixedPointDomain.loopGraph recoveredBody ∅ [] fun _ => false
    exact ⟨states, result, found, ((exact_ 20 states result found).1 (3 : Fin 4)).2.2.2.mp
      (FixedPointOutcome.complete.inj listed)⟩

end Bray.Flow
