/-
  File:      Bray/Flow/Effects.lean
  Subject:   WHAT OPERATIONS USE AND DEFINE (`analysis/liveness/effects/core.rs`, `subjects.rs`).

  Subjects are those of one storage plan, so that an id is always one of the plan's own. The effects carry
  two invariants: what an operation defines is in the universe, and so is every storage identity and every
  borrow capability of the plan. `fromStoragePlan` builds effects that keep them, and what is added later
  (uses of inputs, of selected calls and at exits) does not touch what is defined.
-/
import Bray.Flow.Operation

namespace Bray.Flow

open Finset

/-! ## 1. The storage plan -/

/-- How many identities, accesses and borrow capabilities a plan has. -/
structure StorageIds where
  identities : Nat
  accesses : Nat
  borrows : Nat

/-- `BoundDependencySubject` -/
inductive BoundDependencySubject (ids : StorageIds) where
  | storage (id : Fin ids.identities)
  | storageAccess (id : Fin ids.accesses)
  | borrowCapability (id : Fin ids.borrows)
  | scopedCapability (id : Nat)
  | implementationWitness (id : Nat)
  | implementationRequirement (id : Nat)
  | productStatic (id : Nat)
  | exactThreadStatic (id : Nat)
  | lifecycleObligation (id : Nat)
  deriving DecidableEq

/-- The subjects that liveness decides the lifetimes of. -/
def BoundDependencySubject.isLifetime {ids : StorageIds} : BoundDependencySubject ids → Bool
  | .storage _ | .borrowCapability _ => true
  | _ => false

/-- `StorageAccessRoot` -/
inductive StorageAccessRoot (ids : StorageIds) where
  | storage (storage : Fin ids.identities)
  | recovery (storage : Fin ids.identities)
  | ownedIndirection (storage : Fin ids.identities)
  | borrow (capability : Fin ids.borrows)
  | borrowedStorage (capability : Fin ids.borrows) (storage : Fin ids.identities)

structure StorageAccessPlan (ids : StorageIds) where
  access : Fin ids.accesses
  occurrence : BoundExecutionSite
  node : AnyBoundNodeId

structure PlannedBorrowCapability (ids : StorageIds) where
  occurrence : Option BoundExecutionSite
  access : Fin ids.accesses
  parent : Option (Fin ids.borrows)

/-- The parts of a `StoragePlan` that the effects are built from. -/
structure StoragePlan extends StorageIds where
  definitionOccurrence : Fin identities → Option BoundExecutionSite
  accessRoot : Fin accesses → StorageAccessRoot toStorageIds
  accessIsRecovered : Fin accesses → Bool
  rootIdentity : Fin accesses → Option (Fin identities)
  accessPlans : List (StorageAccessPlan toStorageIds)
  borrowCapability : Fin borrows → PlannedBorrowCapability toStorageIds

namespace StoragePlan

variable (plan : StoragePlan)

/-- `access_is_produced_at` -/
def accessIsProducedAt (access : Fin plan.accesses) (occurrence : BoundExecutionSite) : Bool :=
  (plan.rootIdentity access).bind plan.definitionOccurrence = some occurrence

/-- The loop of `borrow_capability_subjects` up the parents, which are no more than the plan has. -/
def borrowChain : Nat → Option (Fin plan.borrows) → List (BoundDependencySubject plan.toStorageIds)
  | 0, _ | _, none => []
  | fuel + 1, some capability =>
    let planned := plan.borrowCapability capability
    .borrowCapability capability ::
      ((plan.rootIdentity planned.access).toList.map .storage ++ borrowChain fuel planned.parent)

def borrowCapabilitySubjects (capability : Fin plan.borrows) :
  List (BoundDependencySubject plan.toStorageIds) :=
  plan.borrowChain plan.borrows (some capability)

def accessRootSubjects : StorageAccessRoot plan.toStorageIds → List (BoundDependencySubject plan.toStorageIds)
  | .storage storage | .recovery storage | .ownedIndirection storage => [.storage storage]
  | .borrow capability => plan.borrowCapabilitySubjects capability
  | .borrowedStorage capability retained => .storage retained :: plan.borrowCapabilitySubjects capability

end StoragePlan

/-! ## 2. Effects -/

structure OperationEffect (ids : StorageIds) where
  uses : Finset (BoundDependencySubject ids)
  definitions : Finset (BoundDependencySubject ids)

/-- The subjects of an entry that a sparse table may lack. -/
def subjectsAt {ids : StorageIds} {Key : Type} (table : Key → Option (Finset (BoundDependencySubject ids)))
  (key : Key) : Finset (BoundDependencySubject ids) :=
  (table key).getD ∅

/-- The tables of `OperationEffects`. -/
structure EffectTables (ids : StorageIds) where
  byOccurrence : BoundExecutionSite → Option (OperationEffect ids)
  operationResultDefinitions : BoundExecutionSite → Option (Finset (BoundDependencySubject ids))
  universe_ : Finset (BoundDependencySubject ids)
  exitDependencies : AnyBoundNodeId → Option (Finset (BoundDependencySubject ids))
  recoveredNodes : Finset AnyBoundNodeId

/-- `OperationEffects`, with what holds of it however it was built. -/
structure OperationEffects (ids : StorageIds) extends EffectTables ids where
  defined : ∀ occurrence effect, byOccurrence occurrence = some effect → effect.definitions ⊆ universe_
  lifetimes : ∀ subject : BoundDependencySubject ids, subject.isLifetime = true → subject ∈ universe_

namespace EffectTables

variable {ids : StorageIds}

def empty : EffectTables ids where
  byOccurrence := fun _ => none
  operationResultDefinitions := fun _ => none
  universe_ := ∅
  exitDependencies := fun _ => none
  recoveredNodes := ∅

/-- `by_occurrence.entry(occurrence).or_default()` -/
def entry (tables : EffectTables ids) (occurrence : BoundExecutionSite) : OperationEffect ids :=
  (tables.byOccurrence occurrence).getD ⟨∅, ∅⟩

/-- The entry of an occurrence is replaced. -/
def put (tables : EffectTables ids) (occurrence : BoundExecutionSite) (effect : OperationEffect ids) :
  EffectTables ids :=
  { tables with byOccurrence := Function.update tables.byOccurrence occurrence (some effect) }

/-- `effect.uses.extend(uses)` and `effect.definitions.extend(definitions)` -/
def extendEffect (tables : EffectTables ids) (occurrence : BoundExecutionSite)
  (uses definitions : Finset (BoundDependencySubject ids)) : EffectTables ids :=
  tables.put occurrence
    ⟨(tables.entry occurrence).uses ∪ uses, (tables.entry occurrence).definitions ∪ definitions⟩

def extendUniverse (tables : EffectTables ids) (subjects : Finset (BoundDependencySubject ids)) :
  EffectTables ids :=
  { tables with universe_ := tables.universe_ ∪ subjects }

/-- `operation_result_definitions.entry(occurrence).or_default().insert(subject)`, when the operation
produces the subject. -/
def insertResult (tables : EffectTables ids) (produced : Bool) (occurrence : BoundExecutionSite)
  (subject : BoundDependencySubject ids) : EffectTables ids :=
  { tables with
    operationResultDefinitions :=
      if produced then Function.update tables.operationResultDefinitions occurrence
        (some (insert subject (subjectsAt tables.operationResultDefinitions occurrence)))
      else tables.operationResultDefinitions }

/-- `recovered_nodes.insert(node)`, when the access is recovered. -/
def insertRecovered (tables : EffectTables ids) (recovered : Bool) (node : AnyBoundNodeId) : EffectTables ids :=
  { tables with recoveredNodes := if recovered then insert node tables.recoveredNodes else tables.recoveredNodes }

/-- `effect.uses.remove(subject)` -/
def removeUse (tables : EffectTables ids) (occurrence : BoundExecutionSite)
  (subject : BoundDependencySubject ids) : EffectTables ids :=
  tables.put occurrence ⟨(tables.entry occurrence).uses.erase subject, (tables.entry occurrence).definitions⟩

def Defined (tables : EffectTables ids) : Prop :=
  ∀ occurrence effect, tables.byOccurrence occurrence = some effect → effect.definitions ⊆ tables.universe_

theorem empty_defined : (empty : EffectTables ids).Defined := nofun

variable {tables : EffectTables ids}

theorem Defined.extendUniverse (h : tables.Defined)
    (subjects : Finset (BoundDependencySubject ids)) : (tables.extendUniverse subjects).Defined := by
  intro occurrence effect found
  exact (h occurrence effect found).trans subset_union_left

section

variable (h : tables.Defined) (occurrence : BoundExecutionSite)
include h occurrence

/-- The default entry defines nothing. -/
theorem Defined.entry : (tables.entry occurrence).definitions ⊆ tables.universe_ := by
  unfold EffectTables.entry
  cases found : tables.byOccurrence occurrence with
  | none => exact empty_subset _
  | some effect => exact h occurrence effect found

theorem Defined.put {effect : OperationEffect ids} (known : effect.definitions ⊆ tables.universe_) :
    (tables.put occurrence effect).Defined := by
  intro other found listed
  unfold EffectTables.put at listed
  dsimp only at listed
  by_cases same : other = occurrence
  · rw [same, Function.update_self] at listed
    cases listed
    exact known
  · rw [Function.update_of_ne same] at listed
    exact h other found listed

theorem Defined.extendEffect
    (uses : Finset (BoundDependencySubject ids)) {definitions : Finset (BoundDependencySubject ids)}
    (known : definitions ⊆ tables.universe_) : (tables.extendEffect occurrence uses definitions).Defined :=
  h.put occurrence (union_subset (h.entry occurrence) known)

theorem Defined.removeUse (subject : BoundDependencySubject ids) : (tables.removeUse occurrence subject).Defined :=
  h.put occurrence (h.entry occurrence)

end

end EffectTables

/-! ## 3. Effects of a plan -/

namespace OperationEffects

section Build

variable (plan : StoragePlan)

/-- The loop over `identity_entries`. -/
def addIdentity (tables : EffectTables plan.toStorageIds) (identity : Fin plan.identities) :
  EffectTables plan.toStorageIds :=
  let subject := .storage identity
  let tables := tables.extendUniverse {subject}
  match plan.definitionOccurrence identity with
  | none => tables
  | some occurrence =>
    (tables.extendEffect occurrence ∅ {subject}).insertResult occurrence.isExpression occurrence subject

/-- The loop over `access_plans`. -/
def addAccess (tables : EffectTables plan.toStorageIds) (planned : StorageAccessPlan plan.toStorageIds) :
  EffectTables plan.toStorageIds :=
  let subject := .storageAccess planned.access
  let roots := (plan.accessRootSubjects (plan.accessRoot planned.access)).toFinset
  let tables := (tables.extendUniverse {subject}).extendEffect planned.occurrence {subject} {subject}
  let tables := tables.insertResult (plan.accessIsProducedAt planned.access planned.occurrence)
    planned.occurrence subject
  let tables := tables.insertRecovered (plan.accessIsRecovered planned.access) planned.node
  (tables.extendUniverse roots).extendEffect planned.occurrence roots ∅

/-- The loop over `borrow_capability_entries`. -/
def addBorrow (tables : EffectTables plan.toStorageIds) (capability : Fin plan.borrows) :
  EffectTables plan.toStorageIds :=
  let subject := .borrowCapability capability
  let planned := plan.borrowCapability capability
  let tables := tables.extendUniverse {subject}
  match planned.occurrence with
  | none => tables
  | some occurrence =>
    let roots := (plan.accessRootSubjects (plan.accessRoot planned.access)).toFinset
    let parent := (planned.parent.map BoundDependencySubject.borrowCapability).toFinset
    let tables := (tables.extendUniverse parent).extendEffect occurrence
      (insert (.storageAccess planned.access) (roots ∪ parent)) {subject}
    (tables.removeUse occurrence subject).insertResult (plan.accessIsProducedAt planned.access occurrence)
      occurrence subject

/-- The tables of `from_storage_plan` before the uses of inputs are added. -/
def planTables : EffectTables plan.toStorageIds :=
  (List.finRange plan.borrows).foldl (addBorrow plan)
    (plan.accessPlans.foldl (addAccess plan)
      ((List.finRange plan.identities).foldl (addIdentity plan) .empty))

variable {plan}

variable {tables : EffectTables plan.toStorageIds}

theorem addIdentity_spec (h : tables.Defined) (identity : Fin plan.identities) :
    (addIdentity plan tables identity).Defined ∧
      tables.universe_ ∪ {.storage identity} ⊆ (addIdentity plan tables identity).universe_ := by
  have known := h.extendUniverse {.storage identity}
  unfold addIdentity
  split
  · exact ⟨known, subset_rfl⟩
  · exact ⟨known.extendEffect _ _ subset_union_right, subset_rfl⟩

theorem addAccess_spec (h : tables.Defined) (planned : StorageAccessPlan plan.toStorageIds) :
    (addAccess plan tables planned).Defined ∧
      tables.universe_ ∪ {.storageAccess planned.access} ⊆ (addAccess plan tables planned).universe_ := by
  have defined := (h.extendUniverse {.storageAccess planned.access}).extendEffect planned.occurrence
    {.storageAccess planned.access} subset_union_right
  refine ⟨?_, subset_union_left⟩
  exact (defined.extendUniverse _).extendEffect _ _ (empty_subset _)

theorem addBorrow_spec (h : tables.Defined) (capability : Fin plan.borrows) :
    (addBorrow plan tables capability).Defined ∧
      tables.universe_ ∪ {.borrowCapability capability} ⊆ (addBorrow plan tables capability).universe_ := by
  have known := h.extendUniverse {.borrowCapability capability}
  unfold addBorrow
  dsimp only
  split
  · exact ⟨known, subset_rfl⟩
  · refine ⟨?_, subset_union_left⟩
    exact ((known.extendUniverse _).extendEffect _ _
      (subset_union_right.trans subset_union_left)).removeUse _ _

/-- A loop that adds the subjects of its entries to the universe leaves them all there. -/
theorem foldl_spec {Entry : Type} {add : EffectTables plan.toStorageIds → Entry → EffectTables plan.toStorageIds}
    {subjects : Entry → Finset (BoundDependencySubject plan.toStorageIds)} (spec : ∀ tables entry, tables.Defined →
      (add tables entry).Defined ∧ tables.universe_ ∪ subjects entry ⊆ (add tables entry).universe_) :
    ∀ (entries : List Entry) {tables : EffectTables plan.toStorageIds}, tables.Defined →
      (entries.foldl add tables).Defined ∧ tables.universe_ ⊆ (entries.foldl add tables).universe_ ∧
        ∀ entry ∈ entries, subjects entry ⊆ (entries.foldl add tables).universe_ := by
  intro entries
  induction entries with
  | nil =>
    intro tables h
    exact ⟨h, subset_rfl, nofun⟩
  | cons entry rest ih =>
    intro tables h
    obtain ⟨defined, larger⟩ := spec tables entry h
    obtain ⟨all, kept, others⟩ := ih defined
    refine ⟨all, (union_subset_left larger).trans kept, fun other mem => ?_⟩
    rcases List.mem_cons.mp mem with rfl | mem
    · exact (union_subset_right larger).trans kept
    · exact others other mem

theorem planTables_spec : (planTables plan).Defined ∧
    ∀ subject : BoundDependencySubject plan.toStorageIds, subject.isLifetime = true →
      subject ∈ (planTables plan).universe_ := by
  obtain ⟨first, -, identities⟩ := foldl_spec (fun tables identity h => addIdentity_spec h identity)
    (List.finRange plan.identities) EffectTables.empty_defined
  obtain ⟨second, accessed, -⟩ := foldl_spec (fun tables planned h => addAccess_spec h planned)
    plan.accessPlans first
  obtain ⟨third, borrowed, borrows⟩ := foldl_spec (fun tables capability h => addBorrow_spec h capability)
    (List.finRange plan.borrows) second
  refine ⟨third, fun subject lifetime => ?_⟩
  cases subject with
  | storage id =>
    refine borrowed (accessed (identities id (List.mem_finRange id) ?_))
    exact mem_singleton_self _
  | borrowCapability id => exact borrows id (List.mem_finRange id) (mem_singleton_self _)
  | _ => cases lifetime

variable (plan) in
/-- `from_storage_plan`, without the uses of inputs. -/
def fromStoragePlan : OperationEffects plan.toStorageIds where
  toEffectTables := planTables plan
  defined := planTables_spec.1
  lifetimes := planTables_spec.2

end Build

variable {ids : StorageIds} (effects : OperationEffects ids)

/-- `extend_uses` -/
def extendUses (occurrence : BoundExecutionSite) (subjects : Finset (BoundDependencySubject ids)) :
  OperationEffects ids where
  toEffectTables := effects.toEffectTables.extendEffect occurrence subjects ∅
  defined := EffectTables.Defined.extendEffect effects.defined occurrence subjects (empty_subset _)
  lifetimes := effects.lifetimes

end OperationEffects

/-! ## 4. The effect of an operation -/

/-- `OperationEffectView` -/
structure OperationEffectView (ids : StorageIds) where
  effect : OperationEffect ids
  phase : Option AnalysisCallPhase
  resultDefinitions : Option (Finset (BoundDependencySubject ids))
  recovered : Bool

namespace OperationEffectView

variable {ids : StorageIds} (view : OperationEffectView ids)

def uses : Finset (BoundDependencySubject ids) :=
  view.effect.uses.filter fun subject =>
    view.phase ≠ some .completion ∧ (view.recovered = true ∨ subject ∉ view.effect.definitions)

def definitions : Finset (BoundDependencySubject ids) :=
  match view.phase with
  | some .input => view.effect.definitions \ view.resultDefinitions.getD ∅
  | some .attempt => ∅
  | some .completion => view.effect.definitions ∩ view.resultDefinitions.getD ∅
  | none => view.effect.definitions

theorem definitions_subset : view.definitions ⊆ view.effect.definitions := by
  unfold definitions
  split
  · exact sdiff_subset
  · exact empty_subset _
  · exact inter_subset_left
  · exact subset_rfl

def lifetimeSubjects : Finset (BoundDependencySubject ids) :=
  (view.effect.uses ∪ view.effect.definitions).filter fun subject => subject.isLifetime = true

def retirementSubjects : Finset (BoundDependencySubject ids) :=
  view.lifetimeSubjects.filter fun _ => view.phase ≠ some .input ∧ view.phase ≠ some .attempt

end OperationEffectView

namespace OperationEffects

variable {ids : StorageIds} (effects : OperationEffects ids)

/-- The phase of an operation that has an effect of its own. -/
def effectPhase : AnalysisOperationKind → Option (Option AnalysisCallPhase)
  | .result _ .start | .scopeExit _ _ _ _ | .suspension _ .scopedCall => none
  | .suspension _ .await | .suspension _ .yield => some (some .attempt)
  | .call _ phase => some (some phase)
  | .result _ .completion => some (some .completion)
  | .bound _ | .patternObservation _ | .recovery _ => some none

/-- `operation_effect` -/
def operationEffect (operation : AnalysisOperationKind) : Option (OperationEffectView ids) := do
  let phase ← effectPhase operation
  let effect ← effects.byOccurrence operation.occurrence
  return {
    effect := effect
    phase := phase
    resultDefinitions := effects.operationResultDefinitions operation.occurrence
    recovered := operation.node ∈ effects.recoveredNodes }

/-- `retained_at_exit` -/
def retainedAtExit (exit : AnyBoundNodeId) : Finset (BoundDependencySubject ids) :=
  subjectsAt effects.exitDependencies exit

theorem definitions_subset {operation : AnalysisOperationKind} {view : OperationEffectView ids}
    (found : effects.operationEffect operation = some view) : view.definitions ⊆ effects.universe_ := by
  obtain ⟨phase, -, found⟩ := Option.bind_eq_some_iff.mp found
  obtain ⟨effect, entry, found⟩ := Option.bind_eq_some_iff.mp found
  obtain rfl := Option.some.inj found
  exact (OperationEffectView.definitions_subset _).trans (effects.defined _ effect entry)

theorem retirementSubjects_subset (view : OperationEffectView ids) :
    view.retirementSubjects ⊆ effects.universe_ := by
  intro subject mem
  obtain ⟨mem, -⟩ := mem_filter.mp mem
  exact effects.lifetimes subject (mem_filter.mp mem).2

end OperationEffects

end Bray.Flow
