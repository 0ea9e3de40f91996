/-
  File:      Bray/Flow/Liveness.lean
  Subject:   LIVENESS (`analysis/liveness/domain.rs`, `solve.rs`): the backward domain of sets, the
    transfer of a block composed of those of its operations, and the last uses that are published.

  A recovery operation may use every subject, and makes the composed transfer kill nothing of what is
  live after the block. That loses nothing only because what an operation defines is in the universe.

  * **`blockTransfer_apply`** -- the composed transfer is the replay of the operations backwards.
  * **`Unused`** -- on what is executed next, a subject is not used before it is defined again. It is what
    a subject that is not live has, on every path, by induction on the path.
  * **`lastUses_sound`** -- both, for the last uses that a completed analysis publishes.
-/
import Bray.Flow.Effects
import Bray.Flow.Reachability

namespace Bray.Flow

open Option Finset


/-! ## 1. The domain -/

structure SetTransfer (T : Type) [DecidableEq T] where
  generated : Finset T
  killed : Finset T

/-- What a block with this transfer makes of the set that is live after it. -/
def SetTransfer.apply {T : Type} [DecidableEq T] (transfer : SetTransfer T) (source : Finset T) : Finset T :=
  transfer.generated ∪ source \ transfer.killed

section Domain

variable {T : Type} [DecidableEq T] {graph : ControlFlowGraph}

/-- Without a reachability result everything counts as reachable. -/
def blockCounts (reachability : Option (ReachabilityResult graph)) (block : Fin graph.blocks) : Bool :=
  reachability.elim true fun result => result.reachableBlocks block

def edgeCounts (reachability : Option (ReachabilityResult graph)) (edge : Edge graph.blocks) : Bool :=
  reachability.elim true fun result => result.reachableEdges edge

/-- `SetLiveness` -/
def setLiveness (reachability : Option (ReachabilityResult graph)) (transfers : Fin graph.blocks → SetTransfer T)
  (whole : Finset T) : FixedPointDomain graph (Finset T) where
  direction := .backward
  initial := fun _ => ∅
  shouldSeed := fun block => blockCounts reachability block && decide ((transfers block).generated ≠ ∅)
  boundary := ∅
  merge := fun _ target source => target ∪ source
  transfer := fun block source => if blockCounts reachability block then (transfers block).apply source else ∅
  propagate := fun source edge target =>
    if edgeCounts reachability edge then target ∪ (if edge.kind = .recovery then whole else source) else target
  convergenceBound := min (graph.blocks * min (whole.card + 1) usizeMax) usizeMax

/-- What an edge carries to the block it leaves. -/
def livenessAlong (reachability : Option (ReachabilityResult graph)) (whole : Finset T) (edge : Edge graph.blocks)
  (source : Finset T) : WithBot (Finset T) :=
  if edgeCounts reachability edge then ((if edge.kind = .recovery then whole else source : Finset T) : WithBot (Finset T))
  else ⊥

theorem SetTransfer.apply_mono (transfer : SetTransfer T) : Monotone transfer.apply :=
  fun _ _ larger => union_subset_union_right (sdiff_subset_sdiff larger subset_rfl)

variable {reachability : Option (ReachabilityResult graph)} {transfers : Fin graph.blocks → SetTransfer T}
  {whole : Finset T}

theorem setLiveness_lawful :
  (setLiveness reachability transfers whole).Lawful (livenessAlong reachability whole) where
  merge_eq := fun _ _ _ => rfl
  propagate_eq := by
    intro source edge target
    show ((ite _ _ _ : Finset T) : WithBot (Finset T)) = _
    unfold livenessAlong
    split
    · rfl
    · rw [sup_bot_eq]
  transfer_mono := by
    intro block a b larger
    show ite _ _ _ ≤ ite _ _ _
    split
    · exact (transfers block).apply_mono larger
    · exact le_rfl
  along_mono := by
    intro edge a b larger
    unfold livenessAlong
    split
    · refine WithBot.coe_le_coe.mpr ?_
      split
      · exact le_rfl
      · exact larger
    · exact le_rfl

end Domain

/-! ## 2. Transfers -/

section Transfers

variable {ids : StorageIds} (effects : OperationEffects ids)

/-- `operation_requires_conservative_liveness` -/
def operationRequiresConservativeLiveness (operation : AnalysisOperationKind) : Bool := operation.isRecovery

def transferOperation (state : Finset (BoundDependencySubject ids)) (operation : AnalysisOperationKind) :
  Finset (BoundDependencySubject ids) :=
  if operationRequiresConservativeLiveness operation then state ∪ effects.universe_
  else
    match operation with
    | .scopeExit _ exit phase preservesExitValue =>
      if preservesExitValue = true ∧ phase = .lifecycleResolution then state ∪ effects.retainedAtExit exit
      else state
    | operation =>
      match effects.operationEffect operation with
      | none => state
      | some effect => state.filter (fun subject => subject ∉ effect.definitions) ∪ effect.uses

/-- The step of the loop of `block_transfer`, which goes through the operations backwards. -/
def blockTransferStep (operation : AnalysisOperationKind) (transfer : SetTransfer (BoundDependencySubject ids)) :
  SetTransfer (BoundDependencySubject ids) where
  generated := transferOperation effects transfer.generated operation
  killed :=
    if operationRequiresConservativeLiveness operation then ∅
    else
      match effects.operationEffect operation with
      | some effect => transfer.killed ∪ effect.definitions
      | none => transfer.killed

def blockTransfer (operations : List AnalysisOperationKind) : SetTransfer (BoundDependencySubject ids) :=
  operations.foldr (blockTransferStep effects) ⟨∅, ∅⟩

/-- The operations one by one, backwards. -/
def replay (operations : List AnalysisOperationKind) (state : Finset (BoundDependencySubject ids)) :
  Finset (BoundDependencySubject ids) :=
  operations.foldr (fun operation state => transferOperation effects state operation) state

/-- What an operation uses: everything when it recovers, what is retained at a normal exit, else what its
effect uses. -/
def usesOf : AnalysisOperationKind → Finset (BoundDependencySubject ids)
  | .recovery _ => effects.universe_
  | .scopeExit _ exit phase preservesExitValue =>
    if preservesExitValue = true ∧ phase = .lifecycleResolution then effects.retainedAtExit exit else ∅
  | operation => (effects.operationEffect operation).elim ∅ OperationEffectView.uses

def definitionsOf : AnalysisOperationKind → Finset (BoundDependencySubject ids)
  | .recovery _ => ∅
  | operation => (effects.operationEffect operation).elim ∅ OperationEffectView.definitions

/-- A transfer keeps what is not defined and adds what is used. -/
theorem transferOperation_eq (state : Finset (BoundDependencySubject ids)) (operation : AnalysisOperationKind) :
    transferOperation effects state operation =
      state \ definitionsOf effects operation ∪ usesOf effects operation := by
  cases operation with
  | recovery node =>
    show state ∪ effects.universe_ = state \ ∅ ∪ effects.universe_
    rw [sdiff_empty]
  | scopeExit scope exit phase preserves =>
    show (if preserves = true ∧ phase = .lifecycleResolution then state ∪ effects.retainedAtExit exit else state) =
      state \ ∅ ∪ if preserves = true ∧ phase = .lifecycleResolution then effects.retainedAtExit exit else ∅
    rw [sdiff_empty]
    split
    · rfl
    · rw [union_empty]
  | bound _ | patternObservation _ | result _ _ | call _ _ | suspension _ _ =>
    simp only [transferOperation, operationRequiresConservativeLiveness, AnalysisOperationKind.isRecovery,
      Bool.false_eq_true, if_false, usesOf, definitionsOf]
    split
    · next missing => rw [missing, elim_none, elim_none, sdiff_empty, union_empty]
    · next view found => rw [found, elim_some, elim_some, filter_notMem_eq_sdiff]

theorem blockTransferStep_killed (operation : AnalysisOperationKind)
    (transfer : SetTransfer (BoundDependencySubject ids)) : (blockTransferStep effects operation transfer).killed =
      if operation.isRecovery then ∅ else transfer.killed ∪ definitionsOf effects operation := by
  cases operation with
  | recovery node => rfl
  | scopeExit scope exit phase preserves =>
    show transfer.killed = transfer.killed ∪ ∅
    rw [union_empty]
  | bound _ | patternObservation _ | result _ _ | call _ _ | suspension _ _ =>
    simp only [blockTransferStep, operationRequiresConservativeLiveness, AnalysisOperationKind.isRecovery,
      Bool.false_eq_true, if_false, definitionsOf]
    split
    · next view found => rw [found, elim_some]
    · next missing => rw [missing, elim_none, union_empty]

theorem definitionsOf_subset (operation : AnalysisOperationKind) :
    definitionsOf effects operation ⊆ effects.universe_ := by
  cases operation with
  | recovery node => exact empty_subset _
  | scopeExit scope exit phase preserves => exact empty_subset _
  | bound _ | patternObservation _ | result _ _ | call _ _ | suspension _ _ =>
    simp only [definitionsOf]
    cases found : effects.operationEffect _ with
    | none => exact empty_subset _
    | some view => exact effects.definitions_subset found

theorem blockTransfer_killed_subset (operations : List AnalysisOperationKind) :
    (blockTransfer effects operations).killed ⊆ effects.universe_ := by
  induction operations with
  | nil => exact empty_subset _
  | cons operation rest ih =>
    show (blockTransferStep effects operation (blockTransfer effects rest)).killed ⊆ _
    rw [blockTransferStep_killed]
    split
    · exact empty_subset _
    · exact union_subset ih (definitionsOf_subset effects operation)

/-- **The composed transfer is the replay of the operations**, on every set. -/
theorem blockTransfer_apply (operations : List AnalysisOperationKind)
    (state : Finset (BoundDependencySubject ids)) :
    (blockTransfer effects operations).apply state = replay effects operations state := by
  induction operations with
  | nil =>
    show ∅ ∪ state \ ∅ = state
    rw [empty_union, sdiff_empty]
  | cons operation rest ih =>
    show transferOperation effects (blockTransfer effects rest).generated operation ∪
      state \ (blockTransferStep effects operation (blockTransfer effects rest)).killed =
      transferOperation effects (replay effects rest state) operation
    rw [← ih, blockTransferStep_killed, transferOperation_eq, transferOperation_eq, SetTransfer.apply]
    cases recovers : operation.isRecovery with
    | false =>
      rw [if_neg Bool.false_ne_true]
      ext subject
      simp only [mem_union, mem_sdiff]
      tauto
    | true =>
      -- What the rest kills is in the universe, which a recovery operation uses.
      obtain ⟨node, rfl⟩ : ∃ node, operation = .recovery node := by
        cases operation <;> first | exact ⟨_, rfl⟩ | cases recovers
      have known := blockTransfer_killed_subset effects rest
      ext subject
      simp only [definitionsOf, usesOf, mem_union, mem_sdiff]
      tauto

end Transfers

/-! ## 3. Last uses -/

structure LastUse (ids : StorageIds) where
  subject : BoundDependencySubject ids
  occurrence : BoundExecutionSite
  deriving DecidableEq

section Publish

variable {ids : StorageIds} (effects : OperationEffects ids) {graph : ControlFlowGraph}
  (operations : Fin graph.blocks → List AnalysisOperationKind)

/-- `storage_domain` -/
def storageDomain (result : ReachabilityResult graph) :
  FixedPointDomain graph (Finset (BoundDependencySubject ids)) :=
  setLiveness (some result) (fun block => blockTransfer effects (operations block)) effects.universe_

def retiredBy (operation : AnalysisOperationKind) : Finset (BoundDependencySubject ids) :=
  if operationRequiresConservativeLiveness operation then ∅
  else (effects.operationEffect operation).elim ∅ OperationEffectView.retirementSubjects

/-- The loop of `collect_liveness` over the operations of a block, backwards: the uses that end at an
operation and those that continue after it. -/
def collectUses (liveOut : Finset (BoundDependencySubject ids)) :
  List AnalysisOperationKind → Finset (LastUse ids) × Finset (LastUse ids)
  | [] => (∅, ∅)
  | operation :: after =>
    let state := replay effects after liveOut
    let rest := collectUses liveOut after
    let use := fun subject => LastUse.mk subject operation.occurrence
    (rest.1 ∪ ((retiredBy effects operation).filter fun subject => subject ∉ state).image use,
      rest.2 ∪ ((retiredBy effects operation).filter fun subject => subject ∈ state).image use)

/-- The last uses that `collect_liveness` publishes: those that end and continue at no reachable
operation. -/
def lastUses (result : ReachabilityResult graph) (live : Fin graph.blocks → Finset (BoundDependencySubject ids)) :
  Finset (LastUse ids) :=
  let reachable := Finset.univ.filter fun block => result.reachableBlocks block = true
  let collected := fun block => collectUses effects (live block) (operations block)
  reachable.biUnion (fun block => (collected block).1) \ reachable.biUnion fun block => (collected block).2

variable {operations} {effects}

variable {use : LastUse ids}

theorem mem_collectUses_ends {liveOut : Finset (BoundDependencySubject ids)}
    {block : List AnalysisOperationKind} : use ∈ (collectUses effects liveOut block).1 ↔
      ∃ before operation after, block = before ++ operation :: after ∧ operation.occurrence = use.occurrence ∧
        use.subject ∈ retiredBy effects operation ∧ use.subject ∉ replay effects after liveOut := by
  induction block with
  | nil => simp [collectUses]
  | cons operation after ih =>
    rw [collectUses, mem_union, ih]
    constructor
    · intro h
      rcases h with ⟨before, other, rest, rfl, found⟩ | here
      · exact ⟨operation :: before, other, rest, rfl, found⟩
      · obtain ⟨subject, mem, rfl⟩ := mem_image.mp here
        obtain ⟨retired, dead⟩ := mem_filter.mp mem
        exact ⟨[], operation, after, rfl, rfl, retired, dead⟩
    · intro ⟨before, other, rest, split, same, retired, dead⟩
      cases before with
      | nil =>
        obtain ⟨rfl, rfl⟩ := List.cons.inj split
        exact .inr (mem_image.mpr ⟨use.subject, mem_filter.mpr ⟨retired, dead⟩, by rw [same]⟩)
      | cons first before =>
        obtain ⟨rfl, rfl⟩ := List.cons.inj split
        exact .inl ⟨before, other, rest, rfl, same, retired, dead⟩

theorem mem_collectUses_continues {liveOut : Finset (BoundDependencySubject ids)}
    {before after : List AnalysisOperationKind} {operation : AnalysisOperationKind}
    (same : operation.occurrence = use.occurrence) (retired : use.subject ∈ retiredBy effects operation)
    (lives : use.subject ∈ replay effects after liveOut) :
    use ∈ (collectUses effects liveOut (before ++ operation :: after)).2 := by
  induction before with
  | nil =>
    refine mem_union_right _ (mem_image.mpr ⟨use.subject, mem_filter.mpr ⟨retired, lives⟩, ?_⟩)
    rw [same]
  | cons first before ih => exact mem_union_left _ ih

/-- A published use is retired by a reachable operation, and is dead after every one that retires it. -/
theorem mem_lastUses {result : ReachabilityResult graph}
    {live : Fin graph.blocks → Finset (BoundDependencySubject ids)}
    (published : use ∈ lastUses effects operations result live) :
    (∃ block before operation after, result.reachableBlocks block = true ∧
       operations block = before ++ operation :: after ∧ operation.occurrence = use.occurrence ∧
       use.subject ∈ retiredBy effects operation) ∧
      ∀ block before operation after, result.reachableBlocks block = true →
        operations block = before ++ operation :: after → operation.occurrence = use.occurrence →
        use.subject ∈ retiredBy effects operation → use.subject ∉ replay effects after (live block) := by
  obtain ⟨ends, never⟩ := mem_sdiff.mp published
  constructor
  · obtain ⟨block, mem, found⟩ := mem_biUnion.mp ends
    obtain ⟨before, operation, after, split, same, retired, -⟩ := mem_collectUses_ends.mp found
    exact ⟨block, before, operation, after, (mem_filter.mp mem).2, split, same, retired⟩
  · intro block before operation after reachable split same retired lives
    refine never (mem_biUnion.mpr ⟨block, mem_filter.mpr ⟨mem_univ _, reachable⟩, ?_⟩)
    show use ∈ (collectUses effects (live block) (operations block)).2
    rw [split]
    exact mem_collectUses_continues same retired lives

end Publish

/-! ## 4. What is executed next -/

section Paths

variable {ids : StorageIds} (effects : OperationEffects ids) {graph : ControlFlowGraph}

/-- On these operations the subject is not used before one of them defines it. -/
def Unused (subject : BoundDependencySubject ids) : List AnalysisOperationKind → Prop
  | [] => True
  | operation :: rest =>
    subject ∉ usesOf effects operation ∧ (subject ∉ definitionsOf effects operation → Unused subject rest)

/-- What control executes after a block: the operations of the blocks along edges that are not excluded. -/
inductive Continues (operations : Fin graph.blocks → List AnalysisOperationKind) (excluded : Finset Nat) :
  Fin graph.blocks → List AnalysisOperationKind → Prop where
  | stop (block : Fin graph.blocks) : Continues operations excluded block []
  | step {edge : Edge graph.blocks} {trace : List AnalysisOperationKind} (listed : edge ∈ graph.edges)
    (open_ : edge.id ∉ excluded) (rest : Continues operations excluded edge.target trace) :
    Continues operations excluded edge.source (operations edge.target ++ trace)

variable {effects} {subject : BoundDependencySubject ids}

variable {trace : List AnalysisOperationKind}

theorem unused_iff : Unused effects subject trace ↔ ∀ between next rest, trace = between ++ next :: rest →
    (∀ operation ∈ between, subject ∉ definitionsOf effects operation) → subject ∉ usesOf effects next := by
  induction trace with
  | nil => simp [Unused]
  | cons operation rest ih =>
    rw [Unused, ih]
    constructor
    · intro ⟨here, later⟩ between next others split undefined
      cases between with
      | nil =>
        obtain ⟨rfl, rfl⟩ := List.cons.inj split
        exact here
      | cons first between =>
        obtain ⟨rfl, rfl⟩ := List.cons.inj split
        exact later (undefined _ List.mem_cons_self) between next others rfl fun other mem =>
          undefined other (List.mem_cons_of_mem _ mem)
    · intro all
      refine ⟨all [] operation rest rfl nofun, fun kept between next others split undefined => ?_⟩
      refine all (operation :: between) next others (by rw [split]; rfl) fun other mem => ?_
      rcases List.mem_cons.mp mem with rfl | mem
      · exact kept
      · exact undefined other mem

/-- What is not live before operations is unused on them, and on what comes next if it is unused there
whenever it is not live between the two. -/
theorem unused_of_replay {operations : List AnalysisOperationKind}
    {liveOut : Finset (BoundDependencySubject ids)} (dead : subject ∉ replay effects operations liveOut)
    (next : subject ∉ liveOut → Unused effects subject trace) : Unused effects subject (operations ++ trace) := by
  induction operations with
  | nil => exact next dead
  | cons operation rest ih =>
    change subject ∉ transferOperation effects (replay effects rest liveOut) operation at dead
    rw [transferOperation_eq, mem_union, mem_sdiff] at dead
    refine ⟨fun used => dead (.inr used), fun kept => ih fun lives => dead (.inl ⟨lives, kept⟩)⟩

variable {operations : Fin graph.blocks → List AnalysisOperationKind} {excluded : Finset Nat}
  {result : ReachabilityResult graph} {isCancelled : Nat → Bool} {fuel : Nat}
  {live : Fin graph.blocks → Finset (BoundDependencySubject ids)}

/-- What is not live after a reachable block is unused on all that can follow it: by induction on the path.
A block that the solver did not reach has nothing to use, and neither has what follows it. -/
theorem unused_of_continues
    (solved : (storageDomain effects operations result).solveFixedPoint isCancelled fuel = some (.complete live))
    (follows : ∀ edge ∈ graph.edges, edge.id ∉ excluded → result.reachableBlocks edge.source = true →
      result.reachableEdges edge = true ∧ result.reachableBlocks edge.target = true)
    (known : subject ∈ effects.universe_) {block : Fin graph.blocks}
    (path : Continues operations excluded block trace) (reachable : result.reachableBlocks block = true)
    (dead : (storageDomain effects operations result).Reached block → subject ∉ live block) :
    Unused effects subject trace := by
  induction path with
  | stop block => trivial
  | @step edge trace listed open_ rest ih =>
    obtain ⟨passable, arrives⟩ := follows edge listed open_ reachable
    have transfers : ∀ source, (storageDomain effects operations result).transfer edge.target source =
      replay effects (operations edge.target) source := by
      intro source
      rw [← blockTransfer_apply]
      exact if_pos arrives
    by_cases reached : (storageDomain effects operations result).Reached edge.target
    · have before : (storageDomain effects operations result).Reached edge.source := .step listed reached
      have arrived := FixedPointDomain.along_le_states setLiveness_lawful solved listed reached
      change livenessAlong (some result) effects.universe_ edge
        ((storageDomain effects operations result).transfer edge.target (live edge.target)) ≤ live edge.source at arrived
      rw [livenessAlong, if_pos (show edgeCounts (some result) edge = true from passable), transfers,
        WithBot.coe_le_coe] at arrived
      split at arrived
      · exact absurd (arrived known) (dead before)
      · exact unused_of_replay (fun lives => dead before (arrived lives)) fun dead => ih arrives fun _ => dead
    · have nothing : (blockTransfer effects (operations edge.target)).generated = ∅ := by
        by_contra generates
        refine reached (.start ?_)
        rw [Bool.or_eq_true]
        refine .inr (Bool.and_eq_true_iff.mpr ⟨arrives, decide_eq_true generates⟩)
      have dead : subject ∉ replay effects (operations edge.target) ∅ := by
        rw [← blockTransfer_apply, SetTransfer.apply, nothing]
        simp
      exact unused_of_replay dead fun _ => ih arrives fun reached' => absurd reached' reached

end Paths

/-! ## 5. Main result -/

section Main

variable {ids : StorageIds}

/-- Control that leaves a reachable block over an edge that is not excluded stays on reachable edges and
blocks. -/
theorem reachable_follows {graph : ControlFlowGraph} {operations : Fin graph.blocks → List AnalysisOperationKind}
    {excluded : Finset Nat} {exits : List (Fin graph.blocks × AnalysisExitKind)} {isCancelled : Nat → Bool}
    {fuel : Nat} {states : Fin graph.blocks → ReachabilityState} {result : ReachabilityResult graph}
    (run : analyzeReachability graph operations excluded exits isCancelled fuel = some (.complete (states, result))) :
    ∀ edge ∈ graph.edges, edge.id ∉ excluded → result.reachableBlocks edge.source = true →
      result.reachableEdges edge = true ∧ result.reachableBlocks edge.target = true := by
  intro edge listed open_ reachable
  obtain ⟨outcome, found, mapped⟩ := map_eq_some_iff.mp run
  cases outcome with
  | cancelled => cases mapped
  | convergenceInvariantViolated => cases mapped
  | complete solved =>
    obtain ⟨rfl, rfl⟩ := Prod.mk.inj (FixedPointOutcome.complete.inj mapped)
    obtain ⟨path, arrives⟩ := (isReachable_iff found edge.source).mp reachable
    refine ⟨Bool.and_eq_true_iff.mpr ⟨decide_eq_true open_, reachable⟩, ?_⟩
    exact (isReachable_iff found edge.target).mpr ⟨_, .step arrives listed open_⟩

/-- **LIVENESS COMPOSES, AND A LAST USE IS THE LAST.** For all effects, every graph and all operations:
  1. the composed transfer of a block gives, on every set, what its operations give one by one,
    backwards;
  2. when the reachability and the liveness analysis complete, every published last use is retired by a
    reachable operation, and after every reachable operation that retires it there, no path over edges
    that are not excluded uses the subject before it defines the subject again. -/
theorem lastUses_sound (effects : OperationEffects ids) (graph : ControlFlowGraph)
    (operations : Fin graph.blocks → List AnalysisOperationKind) (excluded : Finset Nat)
    (exits : List (Fin graph.blocks × AnalysisExitKind)) (isCancelled isCancelled' : Nat → Bool) :
    (∀ block liveOut, (blockTransfer effects (operations block)).apply liveOut =
       replay effects (operations block) liveOut) ∧ ∀ fuel fuel' states result live,
       analyzeReachability graph operations excluded exits isCancelled fuel = some (.complete (states, result)) →
       (storageDomain effects operations result).solveFixedPoint isCancelled' fuel' = some (.complete live) →
       ∀ use ∈ lastUses effects operations result live,
         (∃ block before operation after, result.reachableBlocks block = true ∧
           operations block = before ++ operation :: after ∧ operation.occurrence = use.occurrence ∧
           use.subject ∈ retiredBy effects operation) ∧
         ∀ block before operation after, result.reachableBlocks block = true →
           operations block = before ++ operation :: after → operation.occurrence = use.occurrence →
           use.subject ∈ retiredBy effects operation → ∀ trace, Continues operations excluded block trace →
             ∀ between next rest, after ++ trace = between ++ next :: rest →
               (∀ other ∈ between, use.subject ∉ definitionsOf effects other) →
                 use.subject ∉ usesOf effects next := by
  refine ⟨fun block => blockTransfer_apply effects (operations block), ?_⟩
  intro fuel fuel' states result live run solved use published
  obtain ⟨retired, dead⟩ := mem_lastUses published
  refine ⟨retired, fun block before operation after reachable split same retires trace path => ?_⟩
  have known : use.subject ∈ effects.universe_ := by
    unfold retiredBy at retires
    split at retires
    · exact absurd retires (notMem_empty _)
    · cases found : effects.operationEffect operation with
      | none =>
        rw [found] at retires
        exact absurd retires (notMem_empty _)
      | some view =>
        rw [found] at retires
        exact effects.retirementSubjects_subset view retires
  refine unused_iff.mp (unused_of_replay (dead block before operation after reachable split same retires) ?_)
  intro gone
  exact unused_of_continues solved (reachable_follows run) known path reachable fun _ => gone

/-- One local and nothing else. -/
def oneLocal : StoragePlan where
  identities := 1
  accesses := 0
  borrows := 0
  definitionOccurrence := fun _ => none
  accessRoot := nofun
  accessIsRecovered := nofun
  rootIdentity := nofun
  accessPlans := []
  borrowCapability := nofun

/-- The header of the loop and its exit use the local. -/
def loopUses : OperationEffects oneLocal.toStorageIds :=
  ((OperationEffects.fromStoragePlan oneLocal).extendUses (.node (.expression 1)) {.storage (0 : Fin 1)}).extendUses
    (.node (.expression 3)) {.storage (0 : Fin 1)}

def loopOperations : Fin FixedPointDomain.loopGraph.blocks → List AnalysisOperationKind :=
  ![[], [.bound (.expression 1)], [], [.bound (.expression 3)]]

/-- On the loop the use of the exit is published as the last, and the use of the header is not: the next
iteration still reads the local. -/
theorem lastUses_sound_loop : ∃ states result live,
    analyzeReachability FixedPointDomain.loopGraph loopOperations ∅ [] (fun _ => false) 20 =
      some (.complete (states, result)) ∧
      (storageDomain loopUses loopOperations result).solveFixedPoint (fun _ => false) 20 = some (.complete live) ∧
      lastUses loopUses loopOperations result live = {⟨.storage (0 : Fin 1), .node (.expression 3)⟩} ∧
      ∀ trace, Continues loopOperations ∅ (3 : Fin 4) trace → ∀ between next rest, trace = between ++ next :: rest →
          (∀ other ∈ between, .storage (0 : Fin 1) ∉ definitionsOf loopUses other) →
            .storage (0 : Fin 1) ∉ usesOf loopUses next := by
  have runs : ((analyzeReachability FixedPointDomain.loopGraph loopOperations ∅ [] (fun _ => false) 20).map
    (·.map fun found =>
      (found.2.reachableBlocks (3 : Fin 4),
        ((storageDomain loopUses loopOperations found.2).solveFixedPoint (fun _ => false) 20).map
          (·.map (lastUses loopUses loopOperations found.2))))) =
    some (.complete (true, some (.complete {⟨.storage (0 : Fin 1), .node (.expression 3)⟩}))) := by
    decide +kernel
  obtain ⟨outcome, run, listed⟩ := map_eq_some_iff.mp runs
  cases outcome with
  | cancelled => cases listed
  | convergenceInvariantViolated => cases listed
  | complete pair =>
    obtain ⟨states, result⟩ := pair
    obtain ⟨arrives, listed⟩ := Prod.mk.inj (FixedPointOutcome.complete.inj listed)
    obtain ⟨outcome, solved, listed⟩ := map_eq_some_iff.mp listed
    cases outcome with
    | cancelled => cases listed
    | convergenceInvariantViolated => cases listed
    | complete live =>
      have published := FixedPointOutcome.complete.inj listed
      refine ⟨states, result, live, run, solved, published, fun trace path between next rest split undefined => ?_⟩
      obtain ⟨-, sound⟩ :=
        lastUses_sound loopUses FixedPointDomain.loopGraph loopOperations ∅ [] (fun _ => false) fun _ => false
      obtain ⟨-, last⟩ := sound 20 20 states result live run solved ⟨.storage (0 : Fin 1), .node (.expression 3)⟩
        (by rw [published]; exact mem_singleton_self _)
      exact last (3 : Fin 4) [] (.bound (.expression 3)) [] arrives rfl rfl (by decide +kernel) trace path
        between next rest split undefined

end Main

end Bray.Flow
