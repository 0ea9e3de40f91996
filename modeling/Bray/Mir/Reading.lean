/-
  File:      Bray/Mir/Reading.lean
  Subject:   READING: how a block of a unit is executed, as far as the values it reads are concerned,
    and what it means that no execution reads an undefined value.

  A block is executed in the order of its own list. An operation defines its result; a value that is
  neither a parameter of the block nor defined so far is undefined. What the operations compute is not
  modelled: which value is read where does not depend on it.
-/
import Bray.Lib.Check
import Bray.Mir.Walk

namespace Bray.Mir

open Bray.Lib

/-! ## 1. Execution -/

namespace MirUnit

variable (mir : MirUnit)

/-- The result of an operation, where the operation exists and has one. -/
def result (id : OperationId) : Option ValueId :=
  (mir.operation id).bind Operation.result

/-- Executes the listed operations from the values defined so far. `none`: an operation does not exist
or reads an undefined value. -/
def execute : List ValueId → List OperationId → Option (List ValueId)
  | defined, [] => some defined
  | defined, id :: rest => do
    let operation ← mir.operation id
    guard (∀ value ∈ operation.kind.reads, value ∈ defined)
    execute (defined ++ operation.result.toList) rest

def executeBlock (block : Block) : Option (List ValueId) := do
  let defined ← mir.execute block.parameters block.operations
  guard (∀ value ∈ block.terminator.reads, value ∈ defined)
  return defined

end MirUnit

/-! ## 2. Transfers -/

/-- A transfer of control: where it goes and the types of what it passes. -/
structure Transfer where
  target : BlockId
  passed : List (Option TypeId)

/-- The transfers that carry no edge in the source: the item of an iteration and the output of inline
assembly are passed by the terminator itself, a failure edge and an assembly label pass nothing. -/
def TerminatorKind.implicitTransfers : TerminatorKind → List Transfer
  | .rangeIterate _ elementType item _ => [⟨item, [some elementType]⟩]
  | .inlineAssembly assembly =>
    ⟨assembly.normal, [some assembly.outputType]⟩ :: assembly.alternates.map fun alternate => ⟨alternate, []⟩
  | .checkCallOutcome _ _ panicked cancelled => [⟨panicked.target, []⟩, ⟨cancelled.target, []⟩]
  | _ => []

/-- Every transfer that a terminator can take. -/
def MirUnit.transfers (mir : MirUnit) (terminator : TerminatorKind) : List Transfer :=
  (terminator.edges.map fun edge => ⟨edge.target, edge.arguments.map mir.operandType⟩)
    ++ terminator.implicitTransfers

/-! ## 3. Soundness -/

namespace MirUnit

variable (mir : MirUnit)

def valueType (id : ValueId) : Option TypeId :=
  (mir.value id).map (·.ty)

/-- The value is a parameter of the block or the result of one of the operations. -/
def DefinedBy (block : Block) (operations : List OperationId) (value : ValueId) : Prop :=
  value ∈ block.parameters ∨ ∃ id ∈ operations, mir.result id = some value

/-- **Soundness** of a unit: what may be relied on when its blocks are executed. -/
structure Sound : Prop where
  /-- No execution of a block reads an undefined value. -/
  executes : ∀ id block, mir.block id = some block → (mir.executeBlock block).isSome
  /-- A value that an operation reads is a parameter or the result of an earlier operation. -/
  earlier : ∀ id block, mir.block id = some block → ∀ before reader after,
    block.operations = before ++ reader :: after → ∀ operation, mir.operation reader = some operation →
    ∀ value ∈ operation.kind.reads, mir.DefinedBy block before value
  /-- A value that a terminator reads is a parameter or the result of an operation of the block. -/
  terminates : ∀ id block, mir.block id = some block →
    ∀ value ∈ block.terminator.reads, mir.DefinedBy block block.operations value
  /-- A transfer passes as many arguments as the target has parameters, with equal types. -/
  passes : ∀ id block, mir.block id = some block → ∀ transfer ∈ mir.transfers block.terminator,
    ∃ target, mir.block transfer.target = some target ∧ transfer.passed = target.parameters.map mir.valueType
  /-- Every value named exists: parameters, and what operations and terminators read. -/
  values : ∀ id block, mir.block id = some block → (∀ value ∈ block.parameters, (mir.value value).isSome) ∧
    (∀ reader ∈ block.operations, ∀ operation, mir.operation reader = some operation →
      ∀ value ∈ operation.kind.reads, (mir.value value).isSome) ∧
    ∀ value ∈ block.terminator.reads, (mir.value value).isSome
  /-- Every storage named exists. -/
  storages : ∀ id block, mir.block id = some block →
    (∀ reader ∈ block.operations, ∀ operation, mir.operation reader = some operation →
      ∀ storage ∈ operation.kind.storages, (mir.storage storage).isSome) ∧
    ∀ storage ∈ block.terminator.storages, (mir.storage storage).isSome
  /-- Every block that an operation retains exists. -/
  retained : ∀ id block, mir.block id = some block → ∀ reader ∈ block.operations, ∀ operation,
    mir.operation reader = some operation → ∀ target ∈ operation.kind.retainedBlocks, (mir.block target).isSome
  /-- The entry, and the blocks and storages of the two descriptors of the unit, exist. -/
  entered : (mir.block mir.entry).isSome ∧
    (∀ descriptor ∈ mir.frameDescriptor, ∀ state ∈ descriptor.states, (mir.block state.entry).isSome ∧
      (mir.block state.retention.broadcast).isSome ∧
      ∀ storage ∈ state.retention.initializedStorages, (mir.storage storage).isSome) ∧
    ∀ continuation ∈ mir.cleanupContinuation, (mir.storage continuation.context).isSome ∧
      (mir.storage continuation.selector.storage).isSome ∧
      visitPlaceOperands continuation.selector = [] ∧
      ∀ entry ∈ continuation.entries, (mir.block entry.handoff).isSome ∧
        (mir.block entry.ordinary).isSome ∧ (mir.block entry.abandoned).isSome
  /-- Every operation listed exists, and every operation is listed by one block, once. -/
  once : (∀ id block, mir.block id = some block → ∀ reader ∈ block.operations, (mir.operation reader).isSome) ∧
    ∀ reader, (mir.operation reader).isSome → ∃ id block, ∃ n : Nat, mir.block id = some block ∧
      block.operations[n]? = some reader ∧
      ∀ id' block', ∀ n' : Nat, mir.block id' = some block' → block'.operations[n']? = some reader →
        id' = id ∧ n' = n

/-! ## 4. The tables -/

/-- What the builder keeps between the tables: a parameter that a block lists and a result that an
operation names are recorded in the value table as exactly that. -/
structure Owned : Prop where
  parameters : ∀ id block, mir.block id = some block → ∀ value ∈ block.parameters,
    ∃ data, mir.value value = some data ∧ data.origin = .blockParameter id
  results : ∀ id value, mir.result id = some value →
    ∃ data, mir.value value = some data ∧ data.origin = .operation id

end MirUnit

/-! ## 5. Reading in order -/

section

variable {mir : MirUnit}

/-- Execution succeeds where every listed operation exists and reads what stands before it. -/
theorem execute_isSome {operations : List OperationId} : ∀ {defined : List ValueId},
    (∀ id ∈ operations, (mir.operation id).isSome) →
    (∀ before reader after, operations = before ++ reader :: after →
      ∀ operation, mir.operation reader = some operation → ∀ value ∈ operation.kind.reads,
        value ∈ defined ∨ ∃ id ∈ before, mir.result id = some value) →
    ∃ reached, mir.execute defined operations = some reached ∧
      ∀ value, value ∈ reached ↔ value ∈ defined ∨ ∃ id ∈ operations, mir.result id = some value := by
  induction operations with
  | nil =>
    intro defined _ _
    exact ⟨defined, rfl, by simp⟩
  | cons id rest ih =>
    intro defined hexists hreads
    obtain ⟨operation, ho⟩ := Option.isSome_iff_exists.mp (hexists id List.mem_cons_self)
    have hresult : ∀ value, value ∈ operation.result.toList ↔ mir.result id = some value := by
      intro value
      simp [MirUnit.result, ho]
    have hfirst : ∀ value ∈ operation.kind.reads, value ∈ defined := by
      intro value hv
      simpa using hreads [] id rest rfl operation ho value hv
    obtain ⟨reached, hr, hmem⟩ := @ih (defined ++ operation.result.toList)
      (fun other hother => hexists other (List.mem_cons_of_mem _ hother)) (by
        intro before reader after hsplit other hother value hv
        obtain hd | ⟨producer, hp, hres⟩ :=
          hreads (id :: before) reader after (by rw [hsplit]; rfl) other hother value hv
        · exact .inl (List.mem_append_left _ hd)
        · obtain rfl | hp := List.mem_cons.mp hp
          · exact .inl (List.mem_append_right _ ((hresult value).mpr hres))
          · exact .inr ⟨producer, hp, hres⟩)
    refine ⟨reached, ?_, fun value => ?_⟩
    · simp only [MirUnit.execute, ho, some_bind]
      rw [guard_eq_some_unit.mpr hfirst]
      exact hr
    · rw [hmem, List.mem_append, hresult, or_assoc]
      simp

end

end Bray.Mir
