/-
  File:      Bray/Mir/Checked.lean
  Subject:   WHAT THE CHECKS ESTABLISH: one lemma for each function of the validator.

  A check on an operation, a terminator or an edge establishes that every operand its walk reaches is
  `Checked`: a value operand passed `validate_value_at`, a storage operand reads a storage that exists.
  The exception is the place of a materialized static, whose projections no check looks at.
-/
import Bray.Mir.Reading
import Bray.Mir.Validate

namespace Bray.Mir

open Bray.Lib List
open Option (bind_eq_bind bind_eq_some_iff)

variable {mir : MirUnit} {block : BlockId} {before : Option OperationId}

/-! ## 1. Operands and places -/

/-- An operand that the checks let pass, at a block and before an operation of it. -/
structure Checked (mir : MirUnit) (block : BlockId) (before : Option OperationId) (operand : Operand) :
  Prop where
  value : ∀ id, operand.valueId = some id → validateValueAt mir id block before = some ()
  storage : ∀ id ∈ visitOperandRoot operand, (mir.storage id).isSome

theorem Checked.of_value {id : ValueId} (h : validateValueAt mir id block before = some ()) :
  Checked mir block before (.value id) where
  value := by
    intro id' he
    cases he
    exact h
  storage := by simp [visitOperandRoot]

theorem Checked.of_place {place : Place} {operand : Operand} (hv : operand.valueId = none)
    (hs : visitOperandRoot operand = [place.storage]) (h : (mir.storage place.storage).isSome) :
  Checked mir block before operand where
  value := by
    intro id he
    rw [hv] at he
    cases he
  storage := by
    intro id hid
    rw [hs, mem_singleton] at hid
    rw [hid]
    exact h

theorem Checked.of_constant {operand : Operand} (hv : operand.valueId = none)
  (hs : visitOperandRoot operand = []) : Checked mir block before operand where
  value := by
    intro id he
    rw [hv] at he
    cases he
  storage := by
    intro id hid
    rw [hs] at hid
    cases hid

@[simp] theorem validateStorage_eq_some {id : StorageId} :
    validateStorage mir id = some () ↔ (mir.storage id).isSome := by
  simp [validateStorage, Option.isSome_iff_exists, bind_eq_some_iff]

@[simp] theorem validateValue_eq_some {id : ValueId} : validateValue mir id = some () ↔ (mir.value id).isSome := by
  simp [validateValue, Option.isSome_iff_exists, bind_eq_some_iff]

mutual

/-- **A checked operand**, and every selector inside it. -/
theorem validateOperand_checked : ∀ operand : Operand, validateOperand mir block before operand = some () →
    ∀ x ∈ visitOperand operand, Checked mir block before x
  | .value id, h, x, hx => by
    rw [visitOperand, mem_singleton] at hx
    rw [hx]
    exact .of_value (by simpa [validateOperand] using h)
  | .constant _ _, _, x, hx => by
    rw [visitOperand, mem_singleton] at hx
    rw [hx]
    exact .of_constant rfl rfl
  | .constantTerm _ _, _, x, hx => by
    rw [visitOperand, mem_singleton] at hx
    rw [hx]
    exact .of_constant rfl rfl
  | .immediate _ _, _, x, hx => by
    rw [visitOperand, mem_singleton] at hx
    rw [hx]
    exact .of_constant rfl rfl
  | .copy place, h, x, hx => by
    rw [validateOperand] at h
    obtain ⟨hs, hp⟩ := validatePlace_checked place h
    rw [visitOperand, mem_append, mem_singleton] at hx
    obtain hx | rfl := hx
    · exact hp x hx
    · exact .of_place rfl rfl hs
  | .move place, h, x, hx => by
    rw [validateOperand] at h
    obtain ⟨hs, hp⟩ := validatePlace_checked place h
    rw [visitOperand, mem_append, mem_singleton] at hx
    obtain hx | rfl := hx
    · exact hp x hx
    · exact .of_place rfl rfl hs

/-- **A checked place**: its root exists and its selectors are checked. -/
theorem validatePlace_checked : ∀ place : Place, validatePlace mir block before place = some () →
    (mir.storage place.storage).isSome ∧ ∀ x ∈ visitPlaceOperands place, Checked mir block before x
  | .mk storage projections ty, h => by
    simp only [validatePlace, check_bind, validateStorage_eq_some] at h
    obtain ⟨hs, h⟩ := h
    obtain ⟨root, -, h⟩ := bind_eq_some_iff.mp h
    obtain ⟨last, h, -⟩ := bind_eq_some_iff.mp h
    refine ⟨hs, ?_⟩
    rw [visitPlaceOperands]
    exact validateProjections_checked projections h

theorem validateProjections_checked : ∀ (projections : List Projection) {expected last : TypeId},
    validateProjections mir block before expected projections = some last →
    ∀ x ∈ visitProjections projections, Checked mir block before x
  | [], _, _, _, x, hx => by
    rw [visitProjections] at hx
    cases hx
  | projection :: rest, _, _, h, x, hx => by
    rw [validateProjections] at h
    obtain ⟨result, h₁, h₂⟩ := bind_eq_some_iff.mp h
    rw [visitProjections, mem_append] at hx
    obtain hx | hx := hx
    · exact validateProjection_checked projection h₁ x hx
    · exact validateProjections_checked rest h₂ x hx

theorem validateProjection_checked : ∀ (projection : Projection) {expected result : TypeId},
    validateProjection mir block before expected projection = some result →
    ∀ x ∈ visitProjection projection, Checked mir block before x
  | .mk kind _ _, _, _, h, x, hx => by
    simp only [validateProjection, check_bind] at h
    rw [visitProjection] at hx
    exact validateProjectionKind_checked kind h.2.1 x hx

theorem validateProjectionKind_checked : ∀ kind : ProjectionKind,
    validateProjectionKind mir block before kind = some () →
    ∀ x ∈ visitProjectionKind kind, Checked mir block before x
  | .index operand, h, x, hx => by
    rw [validateProjectionKind] at h
    rw [visitProjectionKind] at hx
    exact validateOperand_checked operand h x hx
  | .slice start stop, h, x, hx => by
    simp only [validateProjectionKind, check_bind] at h
    rw [visitProjectionKind, mem_append] at hx
    obtain hx | hx := hx
    · exact validateBound_checked start h.1 x hx
    · exact validateBound_checked stop h.2 x hx
  | .dereference, _, x, hx => by simp [visitProjectionKind] at hx
  | .field _, _, x, hx => by simp [visitProjectionKind] at hx
  | .tupleField _, _, x, hx => by simp [visitProjectionKind] at hx
  | .elementFromStart _, _, x, hx => by simp [visitProjectionKind] at hx
  | .elementFromEnd _, _, x, hx => by simp [visitProjectionKind] at hx
  | .variant _, _, x, hx => by simp [visitProjectionKind] at hx
  | .activeUnionPayloadField _ _, _, x, hx => by simp [visitProjectionKind] at hx
  | .activeUnionPayloadElement _ _, _, x, hx => by simp [visitProjectionKind] at hx
  | .nullableValue, _, x, hx => by simp [visitProjectionKind] at hx
  | .ownedStorage, _, x, hx => by simp [visitProjectionKind] at hx

theorem validateBound_checked : ∀ bound : Option Operand, validateBound mir block before bound = some () →
    ∀ x ∈ visitBound bound, Checked mir block before x
  | none, _, x, hx => by
    rw [visitBound] at hx
    cases hx
  | some operand, h, x, hx => by
    rw [validateBound] at h
    rw [visitBound] at hx
    exact validateOperand_checked operand h x hx

end

theorem forM_checked {operands : List Operand} (h : ∀ o ∈ operands, validateOperand mir block before o = some ()) :
    ∀ x ∈ operands.flatMap visitOperand, Checked mir block before x := by
  intro x hx
  obtain ⟨o, ho, hx⟩ := mem_flatMap.mp hx
  exact validateOperand_checked o (h o ho) x hx

theorem validateOptional_checked {operand : Option Operand}
    (h : validateOptional mir block before operand = some ()) :
    ∀ x ∈ operand.toList.flatMap visitOperand, Checked mir block before x := by
  simp only [validateOptional, forM_eq_forM, forM_eq_some] at h
  exact forM_checked h

/-- Operands checked along with their types. The lengths agree, so none is passed over. -/
theorem validateTyped_checked {operands : List Operand} {types : List TypeId}
    (hlen : operands.length = types.length) (h : validateTyped mir block before operands types = some ()) :
    ∀ x ∈ operands.flatMap visitOperand, Checked mir block before x := by
  simp only [validateTyped, forM_eq_forM, forM_eq_some, check_bind] at h
  apply forM_checked
  intro o ho
  obtain ⟨n, hn, rfl⟩ := mem_iff_getElem.mp ho
  exact (h (operands[n], types[n]) (mem_iff_getElem.mpr ⟨n, by simp [hn, ← hlen], by simp⟩)).1

/-! ## 2. Calls, constructions, frames and memory -/

variable {id : OperationId}

theorem validateArguments_checked {arguments : List CallArgument} :
    ∀ {parameters : List ParameterSymbol} {ordinals : List UInt32} {sawReceiver : Bool},
    validateArguments mir block id parameters ordinals sawReceiver arguments = some () →
    ∀ x ∈ arguments.flatMap (fun argument => visitOperand argument.value), Checked mir block (some id) x := by
  induction arguments with
  | nil =>
    intro _ _ _ _ x hx
    cases hx
  | cons argument rest ih =>
    intro parameters ordinals sawReceiver h x hx
    rw [flatMap_cons, mem_append] at hx
    cases argument with
    | receiver parameter value =>
      simp only [validateArguments, check_bind] at h
      obtain ⟨-, hv, -, hrest⟩ := h
      obtain hx | hx := hx
      · exact validateOperand_checked value hv x hx
      · exact ih hrest x hx
    | explicit parameter ordinal value =>
      cases parameter with
      | none =>
        simp only [validateArguments, check_bind] at h
        obtain ⟨-, hv, hrest⟩ := h
        obtain hx | hx := hx
        · exact validateOperand_checked value hv x hx
        · exact ih hrest x hx
      | some parameter =>
        simp only [validateArguments, check_bind] at h
        obtain ⟨-, hv, -, hrest⟩ := h
        obtain hx | hx := hx
        · exact validateOperand_checked value hv x hx
        · exact ih hrest x hx

theorem validateCall_checked {call : Call} (h : validateCall mir block id call = some ()) :
    ∀ x ∈ visitCallOperands call, Checked mir block (some id) x := by
  simp only [validateCall, check_bind] at h
  obtain ⟨-, htarget, -, harguments⟩ := h
  intro x hx
  rw [visitCallOperands, mem_append] at hx
  obtain hx | hx := hx
  · cases ht : call.target with
    | indirect callee abi =>
      simp only [validateCallTarget, ht] at htarget
      simp only [ht] at hx
      exact validateOperand_checked callee htarget x hx
    | direct _ => simp [ht] at hx
    | lifecycle _ _ => simp [ht] at hx
    | defaultValue _ _ => simp [ht] at hx
    | predicate _ => simp [ht] at hx
    | runtime _ => simp [ht] at hx
  · exact validateArguments_checked harguments x hx

theorem validateInputs_checked {target : ConstructionTarget} {supplied : List ConstructionInput} :
    ∀ {inputs : List ConstructionInputId} {ordinals seen : List UInt32},
    validateInputs mir block id target inputs ordinals supplied = some seen →
    ∀ x ∈ supplied.flatMap (fun input => visitOperand input.value), Checked mir block (some id) x := by
  induction supplied with
  | nil =>
    intro _ _ _ _ x hx
    cases hx
  | cons input rest ih =>
    intro inputs ordinals seen h x hx
    simp only [validateInputs, check_bind] at h
    obtain ⟨-, hv, hrest⟩ := h
    rw [flatMap_cons, mem_append] at hx
    obtain hx | hx := hx
    · exact validateOperand_checked input.value hv x hx
    · exact ih hrest x hx

theorem validateConstruction_checked {construction : Construction}
    (h : validateConstruction mir block id construction = some ()) :
    ∀ x ∈ construction.inputs.flatMap (fun input => visitOperand input.value), Checked mir block (some id) x := by
  obtain ⟨seen, h, -⟩ := bind_eq_some_iff.mp h
  exact validateInputs_checked h

theorem validateMemoryOperation_checked {memory : MemoryOperation}
    (h : validateMemoryOperation mir block id memory = some ()) :
    ∀ x ∈ memory.operands.flatMap visitOperand, Checked mir block (some id) x := by
  simp only [validateMemoryOperation, check_bind, guard_eq_some_unit] at h
  obtain ⟨-, ⟨h₁, h₂⟩, h, -⟩ := h
  exact validateTyped_checked (h₁.trans h₂.symm) h

theorem validateAsyncOperation_checked {operation : AsyncOperation}
    (h : validateAsyncOperation mir block id operation = some ()) :
    ∀ x ∈ visitAsyncOperands operation, Checked mir block (some id) x := by
  intro x hx
  cases operation with
  | createFrame initializer =>
    cases initializer with
    | callable call => exact validateCall_checked h x hx
    | taskObservation task futureType runtime =>
      simp only [validateAsyncOperation, validateFrameInitializer, check_bind] at h
      exact validateOperand_checked task h.1 x hx
  | moveInactiveFrame source destination =>
    simp only [validateAsyncOperation, check_bind] at h
    obtain hx | hx := mem_append.mp hx
    · exact (validatePlace_checked source h.1).2 x hx
    · exact (validatePlace_checked destination h.2.1).2 x hx
  | composeAwaitedFrame parent resumeState frame composition =>
    simp only [validateAsyncOperation, check_bind] at h
    exact validateOperand_checked frame h.2.2.2 x hx
  | startTask value allocation start =>
    simp only [validateAsyncOperation, check_bind] at h
    exact validateOperand_checked value h.1 x hx
  | requestTaskCancellation task runtime | resolveTask task runtime =>
    simp only [validateAsyncOperation, check_bind] at h
    exact (validatePlace_checked task h.1).2 x hx
  | publishTerminalState state runtime =>
    simp only [validateAsyncOperation, validateTerminalState, check_bind] at h
    obtain ⟨frame, -, h⟩ := bind_eq_some_iff.mp h.1
    simp only [forM_eq_forM, forM_eq_some] at h
    exact forM_checked h x hx
  | broadcastInactiveFrame frame runtime | resolveInactiveFrame frame runtime
  | destroyInactiveFrame frame runtime =>
    simp only [validateAsyncOperation, check_bind] at h
    exact validateOperand_checked frame h.1 x hx
  | transferCleanupIncident incident report runtime =>
    simp only [validateAsyncOperation, check_bind] at h
    obtain hx | hx := mem_append.mp hx
    · exact (validatePlace_checked incident h.1).2 x hx
    · exact (validatePlace_checked report h.2.1).2 x hx
  | destroyTerminalTask task => exact validateOperand_checked task h x hx
  | resumeFrame _ _ _ _ | commitAwaitedCompletion _ | observeFrameCancellation
  | observeCurrentRunCancellation _ => cases hx

theorem validateStorageKind_isSome {storage : StorageId} {kind : StorageKind}
    (h : validateStorageKind mir storage kind = some ()) : (mir.storage storage).isSome := by
  simp only [validateStorageKind, check_bind, validateStorage_eq_some] at h
  exact h.1

theorem validateFrameRetention_exists {retention : FrameRetention}
    (h : validateFrameRetention mir retention = some ()) : (mir.block retention.broadcast).isSome ∧
      ∀ storage ∈ retention.initializedStorages, (mir.storage storage).isSome := by
  simp only [validateFrameRetention, bind_eq_bind] at h
  obtain ⟨descriptor, -, h⟩ := bind_eq_some_iff.mp h
  simp only [check_bind_eq_some, guard_eq_some_unit, forM_eq_forM, forM_eq_some] at h
  exact ⟨h.2.1.2, fun storage hs => (h.2.2 storage hs).2⟩

/-! ## 3. Operations -/

variable {kind : OperationKind}

/-- Every operand of a checked operation, but for the selectors of a materialized static. -/
theorem validateOperationKind_checked
    (h : validateOperationKind mir block id kind = some ()) (hm : materializes kind = false) :
    ∀ x ∈ kind.ownOperands, Checked mir block (some id) x := by
  intro x hx
  cases kind with
  | admitOutgoing owner runtime | dischargeOutgoing owner runtime =>
    simp only [validateOperationKind, check_bind] at h
    cases owner with
    | frameFactory callee => exact validateOperand_checked callee h.1 x hx
    | value _ | invocation _ _ => cases hx
  | anonymousCallable _ | declaredCallable _ => cases hx
  | store destination value =>
    simp only [validateOperationKind, check_bind] at h
    obtain hx | hx := mem_append.mp hx
    · exact (validatePlace_checked destination h.1).2 x hx
    · exact validateOperand_checked value h.2.1 x hx
  | takeIncomingReport destination normalReport =>
    simp only [validateOperationKind, check_bind, forM_eq_forM, forM_eq_some] at h
    obtain hx | hx := mem_append.mp hx
    · exact (validatePlace_checked destination h.1).2 x hx
    · exact forM_checked (fun report hr => (h.2 report hr).1) x hx
  | borrow place | quiesce place _ | releaseBuffer place _ | cleanup _ place _ =>
    exact (validatePlace_checked place h).2 x hx
  | destroy place collection abandoned =>
    simp only [validateOperationKind, check_bind] at h
    obtain hx | hx := mem_append.mp hx
    · exact (validatePlace_checked place h.1).2 x hx
    · exact validateOptional_checked h.2 x hx
  | traitView operand | traitViewMethod operand | unary operand | numericConversion operand =>
    exact validateOperand_checked operand h x hx
  | convert operand _ _ => exact validateOperand_checked operand h x hx
  | nullableQuery query =>
    simp only [validateOperationKind, check_bind] at h
    exact validateOperand_checked query.operand h.1 x hx
  | binary left right =>
    simp only [validateOperationKind, check_bind] at h
    obtain hx | hx := mem_append.mp hx
    · exact validateOperand_checked left h.1 x hx
    · exact validateOperand_checked right h.2 x hx
  | patternProjection subject => exact validateOperand_checked subject h x hx
  | panicReport cause =>
    cases cause with
    | message operand | explicitTestFailure operand => exact validateOperand_checked operand h x hx
    | assertion message => exact validateOptional_checked h x hx
    | memoryLayoutSizeOverflow | memoryLayoutUnsupportedAlignment => cases hx
  | aggregate kind operands =>
    simp only [validateOperationKind, check_bind, forM_eq_forM, forM_eq_some] at h
    exact forM_checked h.2 x hx
  | construct construction => exact validateConstruction_checked h x hx
  | call call => exact validateCall_checked h x hx
  | memory operation => exact validateMemoryOperation_checked h x hx
  | text operation =>
    simp only [validateOperationKind, check_bind, guard_eq_some_unit] at h
    exact validateTyped_checked h.1 h.2 x hx
  | async operation => exact validateAsyncOperation_checked h x hx
  | host operation =>
    cases operation with
    | materializeStatic place => cases hm
    | initializeRuntime _ | selectTestEntry _ _ | executeRoot _ _ _ _ | observeRootTerminal _ _
    | resolveRootTerminal _ _ _ _ _ | beginStaticCleanup | beginProductEntry | reportCleanupIncidents _
    | structuredShutdown _ _ => cases hx

/-- Every storage that a checked operation addresses. -/
theorem validateOperationKind_storages (h : validateOperationKind mir block id kind = some ()) :
    ∀ storage ∈ kind.ownStorages, (mir.storage storage).isSome := by
  intro storage hs
  cases kind with
  | store destination value | takeIncomingReport destination normalReport =>
    simp only [validateOperationKind, check_bind] at h
    cases mem_singleton.mp hs
    exact (validatePlace_checked destination h.1).1
  | borrow place | quiesce place _ | releaseBuffer place _ | cleanup _ place _ =>
    cases mem_singleton.mp hs
    exact (validatePlace_checked place h).1
  | destroy place collection abandoned =>
    simp only [validateOperationKind, check_bind] at h
    cases mem_singleton.mp hs
    exact (validatePlace_checked place h.1).1
  | async operation =>
    cases operation with
    | moveInactiveFrame source destination =>
      simp only [validateOperationKind, validateAsyncOperation, check_bind] at h
      obtain rfl | hs := mem_cons.mp hs
      · exact (validatePlace_checked source h.1).1
      · cases mem_singleton.mp hs
        exact (validatePlace_checked destination h.2.1).1
    | resumeFrame frame state root runtime =>
      simp only [validateOperationKind, validateAsyncOperation, check_bind] at h
      cases mem_singleton.mp hs
      exact validateStorageKind_isSome h.2.2.1
    | composeAwaitedFrame parent resumeState frame composition =>
      simp only [validateOperationKind, validateAsyncOperation, check_bind, forM_eq_forM, forM_eq_some] at h
      exact validateStorageKind_isSome (h.1 storage hs)
    | commitAwaitedCompletion completion =>
      simp only [validateOperationKind, validateAsyncOperation, check_bind, forM_eq_forM, forM_eq_some] at h
      exact validateStorageKind_isSome (h storage hs).1
    | transferCleanupIncident incident report runtime =>
      simp only [validateOperationKind, validateAsyncOperation, check_bind] at h
      obtain rfl | hs := mem_cons.mp hs
      · exact (validatePlace_checked incident h.1).1
      · cases mem_singleton.mp hs
        exact (validatePlace_checked report h.2.1).1
    | resolveTask task runtime | requestTaskCancellation task runtime =>
      simp only [validateOperationKind, validateAsyncOperation, check_bind] at h
      cases mem_singleton.mp hs
      exact (validatePlace_checked task h.1).1
    | createFrame _ | startTask _ _ _ | observeFrameCancellation | observeCurrentRunCancellation _
    | publishTerminalState _ _ | broadcastInactiveFrame _ _ | resolveInactiveFrame _ _
    | destroyInactiveFrame _ _ | destroyTerminalTask _ => cases hs
  | host operation =>
    cases operation with
    | materializeStatic place =>
      cases mem_singleton.mp hs
      cases hk : mir.kind with
      | executableHost host =>
        simp only [validateOperationKind, validateHostOperation, hk, guard_eq_some_unit] at h
        cases hs : mir.storage place.storage with
        | none => simp [hs] at h
        | some _ => rfl
      | synchronous | protectedAsyncFrame _ => simp [validateOperationKind, validateHostOperation, hk] at h
    | initializeRuntime _ | selectTestEntry _ _ | executeRoot _ _ _ _ | observeRootTerminal _ _
    | resolveRootTerminal _ _ _ _ _ | beginStaticCleanup | beginProductEntry | reportCleanupIncidents _
    | structuredShutdown _ _ => cases hs
  | anonymousCallable _ | declaredCallable _ | traitView _ | traitViewMethod _ | unary _ | binary _ _
  | aggregate _ _ | construct _ | convert _ _ _ | numericConversion _ | nullableQuery _ | patternProjection _
  | call _ | memory _ | text _ | panicReport _ | admitOutgoing _ _ | dischargeOutgoing _ _ => cases hs

theorem validateCollection_checked {collection : CleanupCollection}
    (h : validateCollection mir block id collection = some ()) :
    (∀ place ∈ collection.places, validatePlace mir block (some id) place = some ()) ∧
      ∀ retention ∈ collection.retention.toList, validateFrameRetention mir retention = some () := by
  simpa [validateCollection] using h

/-- What a check of an operation establishes. -/
structure OperationChecked (mir : MirUnit) (block : BlockId) (id : OperationId) (operation : Operation) :
  Prop where
  operands : materializes operation.kind = false → ∀ x ∈ operation.kind.operands, Checked mir block (some id) x
  roots : ∀ storage ∈ operation.kind.ownStorages, (mir.storage storage).isSome
  collection : ∀ collection ∈ operation.kind.cleanupCollection.toList, ∀ place ∈ collection.places,
    (mir.storage place.storage).isSome
  retained : ∀ collection ∈ operation.kind.cleanupCollection.toList,
    ∀ retention ∈ collection.retention.toList, (mir.block retention.broadcast).isSome ∧
      ∀ storage ∈ retention.initializedStorages, (mir.storage storage).isSome
  noResult : materializes operation.kind = true → operation.result = none

/-- A materialized static has no cleanup collection: its operands are the selectors of its place. -/
theorem operands_materializeStatic (place : Place) :
  (OperationKind.host (.materializeStatic place)).operands = visitPlaceOperands place := rfl

theorem rejectsResult_of_materializes (h : materializes kind = true) : rejectsResult kind = true := by
  unfold materializes at h
  split at h
  · rfl
  · cases h

/-- **A checked operation.** -/
theorem validateOperation_checked {blockKind : BlockKind} {operation : Operation}
    (h : validateOperation mir block blockKind id operation = some ()) :
    OperationChecked mir block id operation := by
  simp only [validateOperation, check_bind, forM_eq_forM, forM_eq_some] at h
  obtain ⟨hresult, -, hcollection, hkind⟩ := h
  refine ⟨fun hm x hx => ?_, validateOperationKind_storages hkind, fun collection hc place hp => ?_,
    fun collection hc retention hr => ?_, fun hm => ?_⟩
  · rw [OperationKind.operands, mem_append] at hx
    obtain hx | hx := hx
    · obtain ⟨collection, hc, hx⟩ := mem_flatMap.mp hx
      obtain ⟨place, hp, hx⟩ := mem_flatMap.mp hx
      exact (validatePlace_checked place
        ((validateCollection_checked (hcollection collection hc)).1 place hp)).2 x hx
    · exact validateOperationKind_checked hkind hm x hx
  · exact (validatePlace_checked place
      ((validateCollection_checked (hcollection collection hc)).1 place hp)).1
  · exact validateFrameRetention_exists
      ((validateCollection_checked (hcollection collection hc)).2 retention hr)
  · simp only [validateOperationResult, check_bind, guard_eq_some_unit, rejectsResult_of_materializes hm] at hresult
    cases hr : operation.result with
    | none => rfl
    | some value => simp [hr] at hresult

/-! ## 4. Terminators -/

variable {source : BlockId}

/-- What a checked edge passes: the target exists, the counts and the types agree. -/
structure EdgeChecked (mir : MirUnit) (source : BlockId) (edge : Edge) (target : Block) : Prop where
  exists_target : mir.block edge.target = some target
  operands : ∀ x ∈ edge.arguments.flatMap visitOperand, Checked mir source none x
  types : edge.arguments.map mir.operandType = target.parameters.map fun id => (mir.value id).map (·.ty)

variable {edge : Edge}

theorem validateEdge_checked (h : validateEdge mir source edge = some ()) :
    ∃ target, EdgeChecked mir source edge target := by
  simp only [validateEdge, bind_eq_bind] at h
  obtain ⟨target, ht, h⟩ := bind_eq_some_iff.mp h
  simp only [check_bind_eq_some, guard_eq_some_unit, forM_eq_forM, forM_eq_some] at h
  obtain ⟨hlen, h⟩ := h
  have hpair : ∀ n (hn : n < edge.arguments.length) (hn' : n < target.parameters.length),
    (edge.arguments[n], target.parameters[n]) ∈ edge.arguments.zip target.parameters :=
    fun n hn hn' => mem_iff_getElem.mpr ⟨n, by simp [hn, hn'], by simp⟩
  refine ⟨target, ht, forM_checked fun o ho => ?_, ?_⟩
  · obtain ⟨n, hn, rfl⟩ := mem_iff_getElem.mp ho
    exact (h _ (hpair n hn (hlen ▸ hn))).1
  · apply ext_getElem (by simp [hlen])
    intro n hn hn'
    simp only [length_map] at hn hn'
    obtain ⟨-, h⟩ := h _ (hpair n hn hn')
    obtain ⟨argumentType, ha, h⟩ := bind_eq_some_iff.mp h
    obtain ⟨parameter, hp, h⟩ := bind_eq_some_iff.mp h
    simp only [guard_eq_some_unit] at h
    simp only [getElem_map]
    rw [ha, hp, h]
    rfl

theorem validateLocalEdge_checked (h : validateLocalEdge mir source edge = some ()) :
    ∃ target, EdgeChecked mir source edge target := by
  simp only [validateLocalEdge, check_bind] at h
  exact validateEdge_checked h.1

theorem validateGotoEdge_checked (h : validateGotoEdge mir source edge = some ()) :
    ∃ target, EdgeChecked mir source edge target := by
  simp only [validateGotoEdge, check_bind] at h
  exact validateEdge_checked h.1

theorem validateOrdinaryEdge_checked (h : validateOrdinaryEdge mir source edge = some ()) :
    ∃ target, EdgeChecked mir source edge target := by
  simp only [validateOrdinaryEdge, check_bind] at h
  exact validateEdge_checked h.1

theorem validateCleanupEdge_checked {cleanup : CleanupEdge} (h : validateCleanupEdge mir source cleanup = some ()) :
    ∃ target, EdgeChecked mir source cleanup.edge target := by
  simp only [validateCleanupEdge, check_bind] at h
  exact validateEdge_checked h.1

theorem validateCleanupStart_checked {cleanup : CleanupEdge}
    (h : validateCleanupStart mir source cleanup = some ()) :
    ∃ target, EdgeChecked mir source cleanup.edge target := by
  simp only [validateCleanupStart, check_bind] at h
  exact validateCleanupEdge_checked h.2

theorem validateCases_checked {cases : List SwitchCase} : ∀ {values : List Symbol},
    validateCases mir source values cases = some () →
    ∀ edge ∈ cases.map SwitchCase.edge, ∃ target, EdgeChecked mir source edge target := by
  induction cases with
  | nil =>
    intro _ _ edge he
    cases he
  | cons case rest ih =>
    intro values h edge he
    simp only [validateCases, check_bind] at h
    obtain rfl | he := mem_cons.mp he
    · exact validateLocalEdge_checked h.2.1
    · exact ih h.2.2 edge he

variable {data : Block} {terminator : TerminatorKind}

/-- **Every explicit edge** of a checked terminator. -/
theorem validateTerminatorKind_edges (h : validateTerminatorKind mir source data terminator = some ()) :
    ∀ edge ∈ terminator.edges, ∃ target, EdgeChecked mir source edge target := by
  intro edge he
  cases terminator with
  | goto out =>
    cases mem_singleton.mp he
    exact validateGotoEdge_checked h
  | branch condition thenEdge elseEdge | patternBranch subject matched unmatched =>
    simp only [validateTerminatorKind, bind_eq_bind, check_bind_eq_some] at h
    obtain rfl | he := mem_cons.mp he
    · exact validateLocalEdge_checked h.2.1
    · cases mem_singleton.mp he
      exact validateLocalEdge_checked h.2.2
  | rangeIterate cursor elementType item exhausted =>
    simp only [validateTerminatorKind, bind_eq_bind, check_bind_eq_some] at h
    cases mem_singleton.mp he
    exact validateOrdinaryEdge_checked h.2.2
  | switch discriminant cases otherwise =>
    simp only [validateTerminatorKind, bind_eq_bind, check_bind_eq_some] at h
    obtain he | he := mem_append.mp he
    · exact validateCases_checked h.2.1 edge he
    · cases mem_singleton.mp he
      exact validateLocalEdge_checked h.2.2
  | suspend kind payload resumeState resume cancellation registration wake =>
    simp only [validateTerminatorKind, bind_eq_bind, check_bind_eq_some] at h
    obtain ⟨-, -, hresume, h⟩ := h
    obtain ⟨descriptor, -, h⟩ := bind_eq_some_iff.mp h
    simp only [check_bind_eq_some] at h
    obtain rfl | he := mem_cons.mp he
    · exact validateLocalEdge_checked hresume
    · cases mem_singleton.mp he
      exact validateCleanupStart_checked h.2.1
  | forwardRunResult result edges =>
    simp only [validateTerminatorKind, bind_eq_bind, check_bind_eq_some] at h
    simp only [TerminatorKind.edges, mem_cons, not_mem_nil, or_false] at he
    obtain rfl | rfl | rfl := he
    · exact validateOrdinaryEdge_checked h.2.1
    · exact validateCleanupStart_checked h.2.2.1
    · exact validateCleanupStart_checked h.2.2.2
  | takeCallReport completed report =>
    simp only [validateTerminatorKind, bind_eq_bind, check_bind_eq_some] at h
    cases mem_singleton.mp he
    exact validateLocalEdge_checked h.2.1
  | checkCallOutcome completed completedReport panicked cancelled =>
    simp only [validateTerminatorKind, validateCallOutcomeCheck, bind_eq_bind, check_bind_eq_some] at h
    cases mem_singleton.mp he
    exact validateLocalEdge_checked h.1.1
  | beginCleanup cleanup | cancelCurrentRun cleanup =>
    cases mem_singleton.mp he
    exact validateCleanupStart_checked h
  | continueCleanup cleanup =>
    simp only [validateTerminatorKind, bind_eq_bind, check_bind_eq_some] at h
    cases mem_singleton.mp he
    exact validateCleanupEdge_checked h.2
  | panic report cleanup =>
    simp only [validateTerminatorKind, bind_eq_bind, check_bind_eq_some] at h
    cases mem_singleton.mp he
    exact validateCleanupStart_checked h.2
  | inlineAssembly _ | «return» _ _ | «unreachable» | propagatePanic _ _ | propagateCancellation _ _ =>
    cases he

theorem validateCallFailureEdge_checked {edge : CallFailureEdge}
    (h : validateCallFailureEdge mir source edge = some ()) :
    (∃ target, mir.block edge.target = some target ∧ target.parameters = []) ∧
      validatePlace mir source none edge.report = some () := by
  simp only [validateCallFailureEdge, bind_eq_bind] at h
  obtain ⟨target, ht, h⟩ := bind_eq_some_iff.mp h
  simp only [check_bind_eq_some, guard_eq_some_unit] at h
  exact ⟨⟨target, ht, h.1.2⟩, h.2⟩

theorem validateSingleParameter_checked {target : BlockId} {ty : TypeId}
    (h : validateSingleParameter mir target ty = some ()) :
    ∃ data, mir.block target = some data ∧ [some ty] = data.parameters.map mir.valueType := by
  obtain ⟨data, hd, h⟩ := bind_eq_some_iff.mp h
  refine ⟨data, hd, ?_⟩
  split at h
  · rename_i parameter hp
    obtain ⟨value, hv, h⟩ := bind_eq_some_iff.mp h
    simp only [guard_eq_some_unit] at h
    rw [hp, map_singleton, MirUnit.valueType, hv, Option.map_some, h.2]
  · cases h

theorem validateAlternates_checked {alternates : List BlockId} : ∀ {successors : List BlockId},
    validateAlternates mir successors alternates = some () →
    ∀ target ∈ alternates, ∃ data, mir.block target = some data ∧ data.parameters = [] := by
  induction alternates with
  | nil =>
    intro _ _ target ht
    cases ht
  | cons alternate rest ih =>
    intro successors h target ht
    simp only [validateAlternates, bind_eq_bind] at h
    obtain ⟨data, hd, h⟩ := bind_eq_some_iff.mp h
    simp only [check_bind_eq_some, guard_eq_some_unit] at h
    obtain rfl | ht := mem_cons.mp ht
    · exact ⟨data, hd, h.1.2.2⟩
    · exact ih h.2 target ht

section

variable (h : validateTerminatorKind mir source data terminator = some ())
include h

/-- **Every transfer without an edge** of a checked terminator. -/
theorem validateTerminatorKind_implicit :
    ∀ transfer ∈ terminator.implicitTransfers, ∃ target, mir.block transfer.target = some target ∧
      transfer.passed = target.parameters.map mir.valueType := by
  intro transfer ht
  cases terminator with
  | rangeIterate cursor elementType item exhausted =>
    simp only [validateTerminatorKind, check_bind] at h
    cases mem_singleton.mp ht
    exact validateSingleParameter_checked h.2.1
  | inlineAssembly assembly =>
    simp only [validateTerminatorKind, validateInlineAssembly, check_bind] at h
    obtain ⟨-, -, halternates, hnormal⟩ := h
    obtain rfl | ht := mem_cons.mp ht
    · exact validateSingleParameter_checked hnormal
    · obtain ⟨alternate, ha, rfl⟩ := mem_map.mp ht
      obtain ⟨target, htarget, hp⟩ := validateAlternates_checked halternates alternate ha
      exact ⟨target, htarget, by rw [hp]; rfl⟩
  | checkCallOutcome completed completedReport panicked cancelled =>
    simp only [validateTerminatorKind, validateCallOutcomeCheck, check_bind] at h
    obtain rfl | ht := mem_cons.mp ht
    · obtain ⟨⟨target, htarget, hp⟩, -⟩ := validateCallFailureEdge_checked h.1.2.1
      exact ⟨target, htarget, by rw [hp]; rfl⟩
    · cases mem_singleton.mp ht
      obtain ⟨⟨target, htarget, hp⟩, -⟩ := validateCallFailureEdge_checked h.2.1
      exact ⟨target, htarget, by rw [hp]; rfl⟩
  | goto _ | branch _ _ _ | patternBranch _ _ _ | switch _ _ _ | «return» _ _ | «unreachable»
  | suspend _ _ _ _ _ _ _ | forwardRunResult _ _ | takeCallReport _ _ | beginCleanup _ | continueCleanup _
  | panic _ _ | propagatePanic _ _ | propagateCancellation _ _ | cancelCurrentRun _ => cases ht

theorem validateTerminatorKind_inputs : ∀ x ∈ terminator.inputs, Checked mir source none x := by
  intro x hx
  cases terminator with
  | branch condition _ _ | patternBranch condition _ _ | switch condition _ _ | forwardRunResult condition _
  | panic condition _ | propagatePanic condition _ | propagateCancellation condition _ =>
    simp only [validateTerminatorKind, check_bind] at h
    exact validateOperand_checked condition h.1 x hx
  | rangeIterate cursor elementType item exhausted =>
    simp only [validateTerminatorKind, check_bind] at h
    exact (validatePlace_checked cursor h.1).2 x hx
  | inlineAssembly assembly =>
    simp only [validateTerminatorKind, validateInlineAssembly, check_bind] at h
    exact validateOperand_checked assembly.inputs h.1 x hx
  | «return» value report =>
    simp only [validateTerminatorKind, validateReturn, check_bind, forM_eq_forM, forM_eq_some] at h
    exact forM_checked h.2 x hx
  | suspend kind payload resumeState resume cancellation registration wake =>
    simp only [validateTerminatorKind, check_bind] at h
    cases payload with
    | none => cases hx
    | some operand =>
      cases kind with
      | taskEvent => exact validateOperand_checked operand h.1 x (by simpa [TerminatorKind.inputs] using hx)
      | awaited | yield => exact absurd h.1 (by simp [validatePayload])
  | takeCallReport completed report =>
    simp only [validateTerminatorKind, check_bind] at h
    exact (validatePlace_checked report h.2.2).2 x hx
  | checkCallOutcome completed completedReport panicked cancelled =>
    simp only [validateTerminatorKind, validateCallOutcomeCheck, check_bind, forM_eq_forM, forM_eq_some] at h
    obtain ⟨place, hp, hx⟩ := mem_flatMap.mp hx
    simp only [cons_append, nil_append, mem_cons] at hp
    obtain rfl | rfl | hp := hp
    · exact (validatePlace_checked _ (validateCallFailureEdge_checked h.1.2.1).2).2 x hx
    · exact (validatePlace_checked _ (validateCallFailureEdge_checked h.2.1).2).2 x hx
    · exact (validatePlace_checked place (h.2.2 place hp)).2 x hx
  | goto _ | «unreachable» | beginCleanup _ | continueCleanup _ | cancelCurrentRun _ => cases hx

/-- Every storage that a checked terminator addresses. -/
theorem validateTerminatorKind_storages : ∀ storage ∈ terminator.ownStorages, (mir.storage storage).isSome := by
  intro storage hs
  cases terminator with
  | rangeIterate cursor elementType item exhausted =>
    simp only [validateTerminatorKind, check_bind] at h
    cases mem_singleton.mp hs
    exact (validatePlace_checked cursor h.1).1
  | takeCallReport completed report =>
    simp only [validateTerminatorKind, check_bind] at h
    cases mem_singleton.mp hs
    exact (validatePlace_checked report h.2.2).1
  | checkCallOutcome completed completedReport panicked cancelled =>
    simp only [validateTerminatorKind, validateCallOutcomeCheck, check_bind, forM_eq_forM, forM_eq_some] at h
    obtain hs | hs := mem_append.mp hs
    · obtain ⟨place, hp, rfl⟩ := mem_map.mp hs
      exact (validatePlace_checked place (h.2.2 place hp)).1
    · obtain rfl | hs := mem_cons.mp hs
      · exact (validatePlace_checked _ (validateCallFailureEdge_checked h.1.2.1).2).1
      · cases mem_singleton.mp hs
        exact (validatePlace_checked _ (validateCallFailureEdge_checked h.2.1).2).1
  | goto _ | branch _ _ _ | patternBranch _ _ _ | switch _ _ _ | inlineAssembly _ | «return» _ _
  | «unreachable» | suspend _ _ _ _ _ _ _ | forwardRunResult _ _ | beginCleanup _ | continueCleanup _
  | panic _ _ | propagatePanic _ _ | propagateCancellation _ _ | cancelCurrentRun _ => cases hs

end

/-- What a check of a terminator establishes. -/
structure TerminatorChecked (mir : MirUnit) (source : BlockId) (terminator : TerminatorKind) : Prop where
  operands : ∀ x ∈ terminator.operands, Checked mir source none x
  roots : ∀ storage ∈ terminator.ownStorages, (mir.storage storage).isSome
  passes : ∀ transfer ∈ mir.transfers terminator, ∃ target, mir.block transfer.target = some target ∧
    transfer.passed = target.parameters.map mir.valueType

/-- **A checked terminator.** -/
theorem validateTerminator_checked (h : validateTerminator mir source data = some ()) :
    TerminatorChecked mir source data.terminator := by
  simp only [validateTerminator, check_bind] at h
  refine ⟨fun x hx => ?_, validateTerminatorKind_storages h.1, fun transfer ht => ?_⟩
  · obtain hx | hx := mem_append.mp hx
    · exact validateTerminatorKind_inputs h.1 x hx
    · obtain ⟨edge, he, hx⟩ := mem_flatMap.mp hx
      obtain ⟨target, hedge⟩ := validateTerminatorKind_edges h.1 edge he
      exact hedge.operands x hx
  · obtain ht | ht := mem_append.mp ht
    · obtain ⟨edge, he, rfl⟩ := mem_map.mp ht
      obtain ⟨target, hedge⟩ := validateTerminatorKind_edges h.1 edge he
      exact ⟨target, hedge.exists_target, hedge.types⟩
    · exact validateTerminatorKind_implicit h.1 transfer ht

end Bray.Mir
