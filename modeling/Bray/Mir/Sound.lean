/-
  File:      Bray/Mir/Sound.lean
  Subject:   SOUNDNESS OF THE VALIDATOR: what `is_valid` establishes about the execution of a unit.

  The validator compares positions in the operation table, execution follows the list of the block. The
  two agree where no operation reads the result of an operation that its block lists after it. Besides
  that, one operation is not checked at all: the place of a materialized static. With these two
  conditions a valid unit is sound, and without one of them it is not.
-/
import Bray.Mir.Checked

namespace Bray.Mir

open Bray.Lib List
open Option (bind_eq_bind bind_eq_some_iff mem_def mem_toList)

variable {mir : MirUnit}

/-! ## 1. Tables -/

variable {id : BlockId} {block : Block}

theorem block_eq_some :
    mir.block id = some block ↔ id.unit = mir.unit ∧ mir.blocks[id.slot.toNat]? = some block := by
  by_cases h : id.unit = mir.unit <;> simp [MirUnit.block, MirUnit.localIndex, h]

theorem operation_eq_some {id : OperationId} {operation : Operation} : mir.operation id = some operation ↔
    id.unit = mir.unit ∧ mir.operations[id.slot.toNat]? = some operation := by
  by_cases h : id.unit = mir.unit <;> simp [MirUnit.operation, MirUnit.localIndex, h]

theorem value_eq_some {id : ValueId} {value : Value} :
    mir.value id = some value ↔ id.unit = mir.unit ∧ mir.values[id.slot.toNat]? = some value := by
  by_cases h : id.unit = mir.unit <;> simp [MirUnit.value, MirUnit.localIndex, h]

/-- The identity of a block is its position. -/
theorem blockId_ext {a b : BlockId} (hu : a.unit = b.unit) (hs : a.slot.toNat = b.slot.toNat) : a = b := by
  cases a
  simp_all [UInt32.toNat_inj]

theorem operationId_ext {a b : OperationId} (hu : a.unit = b.unit) (hs : a.slot.toNat = b.slot.toNat) : a = b := by
  cases a
  simp_all [UInt32.toNat_inj]

/-- In lists that share no element, an element has one position. -/
theorem position_unique {α β : Type} {f : α → List β} {xs : List α} (h : (xs.flatMap f).Nodup) {i j : Nat}
    {a b : α} (ha : xs[i]? = some a) (hb : xs[j]? = some b) {n m : Nat} {x : β} (hn : (f a)[n]? = some x)
    (hm : (f b)[m]? = some x) : i = j ∧ n = m := by
  obtain ⟨hnodup, hdisjoint⟩ := nodup_flatMap.mp h
  have hne : ∀ {i j : Nat} {a b : α}, xs[i]? = some a → xs[j]? = some b → x ∈ f a → x ∈ f b → ¬ i < j := by
    intro i j a b ha hb hxa hxb hij
    obtain ⟨hi, rfl⟩ := List.getElem_of_getElem? ha
    obtain ⟨hj, rfl⟩ := List.getElem_of_getElem? hb
    exact pairwise_iff_getElem.mp hdisjoint i j hi hj hij hxa hxb
  have hxa := mem_of_getElem? hn
  have hxb := mem_of_getElem? hm
  obtain rfl : i = j := by
    have h₁ := hne ha hb hxa hxb
    have h₂ := hne hb ha hxb hxa
    omega
  obtain rfl : a = b := Option.some.inj (ha.symm.trans hb)
  refine ⟨rfl, ?_⟩
  obtain ⟨hn', hn⟩ := List.getElem_of_getElem? hn
  obtain ⟨hm', hm⟩ := List.getElem_of_getElem? hm
  exact (hnodup a (mem_of_getElem? ha)).getElem_inj_iff.mp (hn.trans hm.symm)

/-! ## 2. Each operation once -/

/-- An operation that the loop over the blocks has seen. -/
def Marked (mir : MirUnit) (seen : List Bool) (id : OperationId) : Prop :=
  id.unit = mir.unit ∧ seen[id.slot.toNat]? = some true

theorem marked_set {seen : List Bool} {id : OperationId} (hu : id.unit = mir.unit)
    (hfree : seen[id.slot.toNat]? = some false) (other : OperationId) :
    Marked mir (seen.set id.slot.toNat true) other ↔ Marked mir seen other ∨ other = id := by
  have hlt : id.slot.toNat < seen.length := (List.getElem_of_getElem? hfree).1
  unfold Marked
  rw [getElem?_set]
  by_cases hi : id.slot.toNat = other.slot.toNat
  · constructor
    · intro h
      exact .inr (operationId_ext (h.1.trans hu.symm) hi.symm)
    · rintro (h | rfl)
      · rw [← hi, hfree] at h
        cases h.2
      · exact ⟨hu, by simp [hlt]⟩
  · simp only [hi, if_false]
    constructor
    · exact .inl
    · rintro (h | rfl)
      · exact h
      · exact absurd rfl hi

/-- **One block's list.** Every operation in it exists and is checked, stands in it once, and was not
seen before. -/
theorem validateListed_spec {kind : BlockKind} {operations : List OperationId} :
    ∀ {seen seen' : List Bool}, validateListed mir id kind seen operations = some seen' →
    (∀ reader ∈ operations, ∃ data, mir.operation reader = some data ∧ OperationChecked mir id reader data) ∧
    operations.Nodup ∧ (∀ reader ∈ operations, ¬ Marked mir seen reader) ∧
    (∀ other, Marked mir seen' other ↔ Marked mir seen other ∨ other ∈ operations) ∧
    seen'.length = seen.length := by
  induction operations with
  | nil =>
    intro seen seen' h
    cases h
    simp
  | cons reader rest ih =>
    intro seen seen' h
    simp only [validateListed, bind_eq_bind] at h
    obtain ⟨index, hindex, h⟩ := bind_eq_some_iff.mp h
    obtain ⟨marked, hmarked, h⟩ := bind_eq_some_iff.mp h
    simp only [check_bind_eq_some, guard_eq_some_unit] at h
    obtain ⟨rfl, h⟩ := h
    obtain ⟨data, hdata, h⟩ := bind_eq_some_iff.mp h
    simp only [check_bind_eq_some] at h
    have hunit : reader.unit = mir.unit ∧ reader.slot.toNat = index := by
      by_cases hu : reader.unit = mir.unit
      · simpa [MirUnit.localIndex, hu] using hindex
      · simp [MirUnit.localIndex, hu] at hindex
    obtain ⟨hu, rfl⟩ := hunit
    obtain ⟨hchecked, hnodup, hfresh, hmem, hlen⟩ := ih h.2
    have hset := marked_set hu hmarked
    have hreader : reader ∉ rest := fun hin => hfresh reader hin ((hset reader).mpr (.inr rfl))
    refine ⟨?_, nodup_cons.mpr ⟨hreader, hnodup⟩, ?_, fun other => ?_, ?_⟩
    · intro other hother
      obtain rfl | hother := mem_cons.mp hother
      · exact ⟨data, operation_eq_some.mpr ⟨hu, hdata⟩, validateOperation_checked h.1⟩
      · exact hchecked other hother
    · intro other hother hm
      obtain rfl | hother := mem_cons.mp hother
      · have := hm.2
        rw [hmarked] at this
        cases this
      · exact hfresh other hother ((hset other).mpr (.inl hm))
    · rw [hmem, hset, mem_cons, or_assoc]
    · rw [hlen, length_set]

/-- What the check of one block establishes. -/
structure BlockChecked (mir : MirUnit) (id : BlockId) (block : Block) : Prop where
  parameters : ∀ value ∈ block.parameters, (mir.value value).isSome
  operations : ∀ reader ∈ block.operations, ∃ data, mir.operation reader = some data ∧
    OperationChecked mir id reader data
  terminator : TerminatorChecked mir id block.terminator

/-- **The loop over the blocks.** -/
theorem validateBlockTable_spec {blocks : List (Block × Nat)} :
    ∀ {seen seen' : List Bool}, validateBlockTable mir seen blocks = some seen' →
    (∀ entry ∈ blocks, ∃ slot, compactSlot entry.2 = some slot ∧ BlockChecked mir ⟨mir.unit, slot⟩ entry.1) ∧
    (blocks.flatMap (·.1.operations)).Nodup ∧
    (∀ reader ∈ blocks.flatMap (·.1.operations), ¬ Marked mir seen reader) ∧
    (∀ other, Marked mir seen' other ↔ Marked mir seen other ∨ other ∈ blocks.flatMap (·.1.operations)) ∧
    seen'.length = seen.length := by
  induction blocks with
  | nil =>
    intro seen seen' h
    cases h
    simp
  | cons entry rest ih =>
    intro seen seen' h
    simp only [validateBlockTable, bind_eq_bind] at h
    obtain ⟨slot, hslot, h⟩ := bind_eq_some_iff.mp h
    simp only [check_bind_eq_some, forM_eq_forM, forM_eq_some, validateValue_eq_some] at h
    obtain ⟨hparameters, h⟩ := h
    obtain ⟨seen₁, hlisted, h⟩ := bind_eq_some_iff.mp h
    simp only [check_bind_eq_some] at h
    obtain ⟨hchecked, hnodup, hfresh, hmem, hlen⟩ := validateListed_spec hlisted
    obtain ⟨hblocks, hnodup', hfresh', hmem', hlen'⟩ := ih h.2
    rw [flatMap_cons]
    refine ⟨?_, ?_, ?_, fun other => ?_, hlen'.trans hlen⟩
    · intro entry hentry
      obtain rfl | hentry := mem_cons.mp hentry
      · exact ⟨slot, hslot, hparameters, hchecked, validateTerminator_checked h.1⟩
      · exact hblocks entry hentry
    · refine nodup_append'.mpr ⟨hnodup, hnodup', ?_⟩
      intro reader h₁ h₂
      exact hfresh' reader h₂ ((hmem reader).mpr (.inr h₁))
    · intro reader hr hm
      obtain hr | hr := mem_append.mp hr
      · exact hfresh reader hr hm
      · exact hfresh' reader hr ((hmem reader).mpr (.inl hm))
    · rw [hmem', hmem, mem_append, or_assoc]

theorem entry_of_block (h : mir.block id = some block) : (block, id.slot.toNat) ∈ mir.blocks.zipIdx :=
  mem_zipIdx_iff_getElem?.mpr (block_eq_some.mp h).2

theorem flatMap_zipIdx {α β : Type} (f : α → List β) (xs : List α) :
    xs.zipIdx.flatMap (fun entry => f entry.1) = xs.flatMap f := by
  rw [← flatMap_map (f := Prod.fst) (g := f), zipIdx_map_fst]

/-- What `validate_blocks` establishes. -/
structure BlocksChecked (mir : MirUnit) : Prop where
  checked : ∀ id block, mir.block id = some block → BlockChecked mir id block
  nodup : (mir.blocks.flatMap Block.operations).Nodup
  listed : ∀ reader, (mir.operation reader).isSome → reader ∈ mir.blocks.flatMap Block.operations
  slots : ∀ index < mir.blocks.length, (compactSlot index).isSome

theorem validateBlocks_spec (h : validateBlocks mir = some ()) : BlocksChecked mir := by
  obtain ⟨seen, hseen, h⟩ := bind_eq_some_iff.mp h
  simp only [guard_eq_some_unit, all_eq_true, id_eq] at h
  obtain ⟨hblocks, hnodup, -, hmem, hlen⟩ := validateBlockTable_spec hseen
  rw [flatMap_zipIdx Block.operations] at hnodup hmem
  rw [length_replicate] at hlen
  refine ⟨fun id block hb => ?_, hnodup, fun reader hreader => ?_, fun index hindex => ?_⟩
  · obtain ⟨slot, hslot, hchecked⟩ := hblocks _ (entry_of_block hb)
    have hid : id = ⟨mir.unit, slot⟩ :=
      blockId_ext (block_eq_some.mp hb).1 (compactSlot_eq_some hslot).symm
    rw [hid]
    exact hchecked
  · obtain ⟨data, hdata⟩ := Option.isSome_iff_exists.mp hreader
    obtain ⟨hu, hdata⟩ := operation_eq_some.mp hdata
    obtain ⟨hlt, -⟩ := List.getElem_of_getElem? hdata
    have hmarked : Marked mir seen reader := by
      refine ⟨hu, ?_⟩
      rw [← hlen] at hlt
      rw [getElem?_eq_getElem hlt, h _ (getElem_mem hlt)]
    obtain hfalse | hin := (hmem reader).mp hmarked
    · have := hfalse.2
      rw [getElem?_replicate] at this
      split at this <;> cases this
    · exact hin
  · obtain ⟨slot, hslot, -⟩ := hblocks (mir.blocks[index], index)
      (mem_zipIdx_iff_getElem?.mpr (getElem?_eq_getElem hindex))
    rw [hslot]
    rfl

/-! ## 3. Definitions and descriptors -/

/-- A value recorded in the table is defined where the table says. -/
theorem validateValueDefinitions_spec (h : validateValueDefinitions mir = some ()) {id : ValueId}
    {data : Value} (hdata : mir.value id = some data) :
    (∀ owner, data.origin = .blockParameter owner → ∃ block, mir.block owner = some block ∧ id ∈ block.parameters) ∧
    ∀ producer, data.origin = .operation producer → mir.result producer = some id := by
  simp only [validateValueDefinitions, forM_eq_forM, forM_eq_some, bind_eq_bind] at h
  obtain ⟨hu, hdata⟩ := value_eq_some.mp hdata
  obtain ⟨slot, hslot, h⟩ := bind_eq_some_iff.mp
    (h (data, id.slot.toNat) (mem_zipIdx_iff_getElem?.mpr hdata))
  have hid : id = ⟨mir.unit, slot⟩ := by
    cases id
    have := compactSlot_eq_some hslot
    simp_all [UInt32.toNat_inj]
  constructor
  · intro owner horigin
    simp only [horigin] at h
    obtain ⟨block, hb, h⟩ := bind_eq_some_iff.mp h
    rw [guard_eq_some_unit, ← hid] at h
    exact ⟨block, hb, h⟩
  · intro producer horigin
    simp only [horigin] at h
    obtain ⟨operation, ho, h⟩ := bind_eq_some_iff.mp h
    rw [guard_eq_some_unit, ← hid] at h
    rw [MirUnit.result, ho]
    exact h

theorem validateFrameDescriptor_spec (h : validateFrameDescriptor mir = some ()) :
    ∀ descriptor ∈ mir.frameDescriptor, ∀ state ∈ descriptor.states, (mir.block state.entry).isSome ∧
      (mir.block state.retention.broadcast).isSome ∧
      ∀ storage ∈ state.retention.initializedStorages, (mir.storage storage).isSome := by
  intro descriptor hd state hs
  simp only [validateFrameDescriptor, bind_eq_bind, check_bind_eq_some] at h
  obtain ⟨-, h⟩ := h
  cases hk : mir.kind with
  | protectedAsyncFrame frame =>
    simp only [hk, mem_def.mp hd, check_bind_eq_some, forM_eq_forM, forM_eq_some, guard_eq_some_unit] at h
    obtain ⟨⟨-, hentry⟩, hretention⟩ := h.2.2.2 state hs
    exact ⟨hentry, validateFrameRetention_exists hretention⟩
  | synchronous => simp [hk, mem_def.mp hd] at h
  | executableHost host => simp [hk, mem_def.mp hd] at h

theorem validateEntryTargets_spec {targets : List BlockId} : ∀ {entries entries' : List BlockId},
    validateEntryTargets mir entries targets = some entries' → ∀ target ∈ targets, (mir.block target).isSome := by
  induction targets with
  | nil =>
    intro _ _ _ target ht
    cases ht
  | cons entry rest ih =>
    intro entries entries' h target ht
    simp only [validateEntryTargets, bind_eq_bind] at h
    obtain ⟨block, hb, h⟩ := bind_eq_some_iff.mp h
    simp only [check_bind_eq_some] at h
    obtain rfl | ht := mem_cons.mp ht
    · rw [hb]
      rfl
    · exact ih h.2 target ht

theorem validateCleanupEntries_spec {cleanups : List CleanupEntry} : ∀ {entries : List BlockId},
    validateCleanupEntries mir entries cleanups = some () →
    ∀ cleanup ∈ cleanups, (mir.block cleanup.handoff).isSome ∧ (mir.block cleanup.ordinary).isSome ∧
      (mir.block cleanup.abandoned).isSome := by
  induction cleanups with
  | nil =>
    intro _ _ cleanup hc
    cases hc
  | cons first rest ih =>
    intro entries h cleanup hc
    simp only [validateCleanupEntries, bind_eq_bind] at h
    obtain ⟨handoff, hh, h⟩ := bind_eq_some_iff.mp h
    simp only [check_bind_eq_some] at h
    obtain ⟨-, h⟩ := h
    obtain ⟨entries', htargets, h⟩ := bind_eq_some_iff.mp h
    obtain rfl | hc := mem_cons.mp hc
    · have := validateEntryTargets_spec htargets
      exact ⟨by rw [hh]; rfl, this _ (by simp [CleanupEntry.targets]), this _ (by simp [CleanupEntry.targets])⟩
    · exact ih h cleanup hc

/-- A selector is a field of the dereferenced context: it reads nothing else. -/
theorem visitPlaceOperands_of_selectsField {place : Place} (h : selectsField place.projections = true) :
    visitPlaceOperands place = [] := by
  obtain ⟨storage, projections, ty⟩ := place
  rw [visitPlaceOperands]
  unfold selectsField at h
  split at h
  · rename_i hp
    rw [show projections = _ from hp]
    simp [visitProjections, visitProjection, visitProjectionKind]
  · cases h

theorem validateCleanupContinuation_spec (h : validateCleanupContinuation mir = some ()) :
    ∀ continuation ∈ mir.cleanupContinuation, (mir.storage continuation.context).isSome ∧
      (mir.storage continuation.selector.storage).isSome ∧ visitPlaceOperands continuation.selector = [] ∧
      ∀ entry ∈ continuation.entries, (mir.block entry.handoff).isSome ∧ (mir.block entry.ordinary).isSome ∧
        (mir.block entry.abandoned).isSome := by
  intro continuation hc
  simp only [validateCleanupContinuation, forM_eq_forM, forM_eq_some, mem_toList, bind_eq_bind] at h
  obtain ⟨context, hcontext, h⟩ := bind_eq_some_iff.mp (h continuation hc)
  simp only [check_bind_eq_some, guard_eq_some_unit] at h
  obtain ⟨⟨-, -, hselector, hfield, -⟩, hentries⟩ := h
  have hsome : (mir.storage continuation.context).isSome := by
    rw [hcontext]
    rfl
  exact ⟨hsome, by rwa [hselector], visitPlaceOperands_of_selectsField hfield, validateCleanupEntries_spec hentries⟩

/-- What `is_valid` establishes about the unit as a whole. -/
structure UnitChecked (mir : MirUnit) : Prop where
  entry : (mir.block mir.entry).isSome
  frame : validateFrameDescriptor mir = some ()
  continuation : validateCleanupContinuation mir = some ()
  definitions : validateValueDefinitions mir = some ()
  blocks : BlocksChecked mir

theorem isValid_spec (h : mir.isValid = true) : UnitChecked mir := by
  obtain ⟨⟨⟩, h⟩ := Option.isSome_iff_exists.mp h
  simp only [validateUnit, bind_eq_bind] at h
  obtain ⟨entry, hentry, h⟩ := bind_eq_some_iff.mp h
  simp only [check_bind_eq_some] at h
  obtain ⟨-, hframe, hcontinuation, hdefinitions, hblocks, -⟩ := h
  exact ⟨by rw [hentry]; rfl, hframe, hcontinuation, hdefinitions, validateBlocks_spec hblocks⟩

/-! ## 4. The two conditions -/

/-- No operation reads the result of an operation that its block lists after it. -/
def MirUnit.ReadsInOrder (mir : MirUnit) : Prop :=
  ∀ id block, mir.block id = some block → block.operations.Pairwise fun reader later =>
    ∀ operation, mir.operation reader = some operation → ∀ value ∈ operation.kind.reads,
      mir.result later ≠ some value

/-- The check that is left out: a value that selects inside the place of a materialized static belongs
to the block, and a storage that is read there exists. -/
def MirUnit.SelectorsChecked (mir : MirUnit) : Prop :=
  ∀ id block, mir.block id = some block → ∀ reader ∈ block.operations, ∀ operation,
    mir.operation reader = some operation → ∀ place, operation.kind = .host (.materializeStatic place) →
    ∀ operand ∈ visitPlaceOperands place, Checked mir id none operand

/-- A value that passed `validate_value_at` is a parameter of the block or a result of it. -/
theorem definedBy_of_validateValueAt (hdefs : validateValueDefinitions mir = some ())
    (hb : mir.block id = some block) {before : Option OperationId} {value : ValueId}
    (h : validateValueAt mir value id before = some ()) :
    (mir.value value).isSome ∧ (value ∈ block.parameters ∨ ∃ producer ∈ block.operations,
      mir.result producer = some value ∧ ∀ reader ∈ before, producer.slot.toNat < reader.slot.toNat) := by
  simp only [validateValueAt, check_bind, validateValue_eq_some] at h
  obtain ⟨hsome, h⟩ := h
  obtain ⟨data, hdata, h⟩ := bind_eq_some_iff.mp h
  obtain ⟨hparameter, hproducer⟩ := validateValueDefinitions_spec hdefs hdata
  refine ⟨hsome, ?_⟩
  rw [guard_eq_some_unit, availableAt.eq_def] at h
  cases horigin : data.origin with
  | blockParameter owner =>
    simp only [horigin, beq_iff_eq] at h
    obtain ⟨block', hb', hmem⟩ := hparameter owner horigin
    rw [h, hb] at hb'
    cases hb'
    exact .inl hmem
  | operation producer =>
    simp only [horigin, hb, Option.any_some, Bool.and_eq_true, contains_iff_mem] at h
    refine .inr ⟨producer, h.1, hproducer producer horigin, ?_⟩
    intro reader hreader
    have := h.2
    rw [mem_def.mp hreader] at this
    simpa using this

theorem origin_of_definedBy (howned : mir.Owned)
    (hb : mir.block id = some block) {operations : List OperationId} {value : ValueId}
    (h : mir.DefinedBy block operations value) : ∃ data, mir.value value = some data ∧
      (data.origin = .blockParameter id ∨ ∃ producer ∈ operations, data.origin = .operation producer ∧
        mir.result producer = some value) := by
  obtain hp | ⟨producer, hin, hresult⟩ := h
  · obtain ⟨data, hdata, horigin⟩ := howned.parameters id block hb value hp
    exact ⟨data, hdata, .inl horigin⟩
  · obtain ⟨data, hdata, horigin⟩ := howned.results producer value hresult
    exact ⟨data, hdata, .inr ⟨producer, hin, horigin, hresult⟩⟩

section

variable (hunit : UnitChecked mir)
include hunit

variable {id : BlockId} {block : Block}

theorem UnitChecked.checked (hb : mir.block id = some block) : BlockChecked mir id block :=
  hunit.blocks.checked id block hb

/-- A block lists no operation twice. -/
theorem UnitChecked.nodup (hb : mir.block id = some block) : block.operations.Nodup :=
  (nodup_flatMap.mp hunit.blocks.nodup).1 block (mem_of_getElem? (block_eq_some.mp hb).2)

variable {reader : OperationId} {operation : Operation}

theorem UnitChecked.operationChecked (hb : mir.block id = some block) (hr : reader ∈ block.operations)
    (ho : mir.operation reader = some operation) : OperationChecked mir id reader operation := by
  obtain ⟨data, hdata, hchecked⟩ := (hunit.checked hb).operations reader hr
  rw [ho] at hdata
  cases hdata
  exact hchecked

/-- **The order of a list**: with nothing read ahead, a producer of the block that is not the reader
itself stands before it. -/
theorem UnitChecked.producer_before (horder : mir.ReadsInOrder)
    (hb : mir.block id = some block) {before after : List OperationId} {producer : OperationId}
    (hsplit : block.operations = before ++ reader :: after)
    (ho : mir.operation reader = some operation) {value : ValueId} (hv : value ∈ operation.kind.reads)
    (hp : producer ∈ block.operations) (hresult : mir.result producer = some value) (hne : producer ≠ reader) :
    producer ∈ before := by
  have hpairs := horder id block hb
  rw [hsplit] at hp hpairs
  obtain hp | hp := mem_append.mp hp
  · exact hp
  · obtain rfl | hp := mem_cons.mp hp
    · exact absurd rfl hne
    · have := (pairwise_cons.mp (pairwise_append.mp hpairs).2.1).1 producer hp operation ho value hv
      exact absurd hresult this

/-- Every operand of a listed operation, with the selectors of materialized statics checked too. -/
theorem UnitChecked.operand_checked (hselectors : mir.SelectorsChecked)
    (hb : mir.block id = some block) (hr : reader ∈ block.operations)
    (ho : mir.operation reader = some operation) {operand : Operand}
    (hin : operand ∈ operation.kind.operands) : Checked mir id (some reader) operand ∨
      (Checked mir id none operand ∧ operation.result = none) := by
  have hchecked := hunit.operationChecked hb hr ho
  cases hm : materializes operation.kind with
  | false => exact .inl (hchecked.operands hm operand hin)
  | true =>
    obtain ⟨place, hkind⟩ : ∃ place, operation.kind = .host (.materializeStatic place) := by
      unfold materializes at hm
      split at hm
      · rename_i place hkind
        exact ⟨place, hkind⟩
      · cases hm
    rw [hkind, operands_materializeStatic] at hin
    exact .inr ⟨hselectors id block hb reader hr operation ho place hkind operand hin, hchecked.noResult hm⟩

/-- **What an operation reads** exists and is defined before it. -/
theorem UnitChecked.read_defined (horder : mir.ReadsInOrder) (hselectors : mir.SelectorsChecked)
    (hb : mir.block id = some block) {before after : List OperationId}
    (hsplit : block.operations = before ++ reader :: after)
    (ho : mir.operation reader = some operation) {value : ValueId} (hv : value ∈ operation.kind.reads) :
    (mir.value value).isSome ∧ mir.DefinedBy block before value := by
  have hr : reader ∈ block.operations := by
    rw [hsplit]
    simp
  obtain ⟨operand, hin, hid⟩ := mem_filterMap.mp hv
  obtain hchecked | ⟨hchecked, hnone⟩ := hunit.operand_checked hselectors hb hr ho hin
  · obtain ⟨hsome, hp | ⟨producer, hp, hresult, hlt⟩⟩ :=
      definedBy_of_validateValueAt hunit.definitions hb (hchecked.value value hid)
    · exact ⟨hsome, .inl hp⟩
    · have hne : producer ≠ reader := by
        rintro rfl
        exact absurd (hlt producer rfl) (lt_irrefl _)
      exact ⟨hsome, .inr ⟨producer, hunit.producer_before horder hb hsplit ho hv hp hresult hne, hresult⟩⟩
  · obtain ⟨hsome, hp | ⟨producer, hp, hresult, -⟩⟩ :=
      definedBy_of_validateValueAt hunit.definitions hb (hchecked.value value hid)
    · exact ⟨hsome, .inl hp⟩
    · have hne : producer ≠ reader := by
        rintro rfl
        simp [MirUnit.result, ho, hnone] at hresult
      exact ⟨hsome, .inr ⟨producer, hunit.producer_before horder hb hsplit ho hv hp hresult hne, hresult⟩⟩

theorem UnitChecked.terminator_defined (hb : mir.block id = some block)
    {value : ValueId} (hv : value ∈ block.terminator.reads) :
    (mir.value value).isSome ∧ mir.DefinedBy block block.operations value := by
  obtain ⟨operand, hin, hid⟩ := mem_filterMap.mp hv
  have hchecked := (hunit.checked hb).terminator.operands operand hin
  obtain ⟨hsome, hp | ⟨producer, hp, hresult, -⟩⟩ :=
    definedBy_of_validateValueAt hunit.definitions hb (hchecked.value value hid)
  · exact ⟨hsome, .inl hp⟩
  · exact ⟨hsome, .inr ⟨producer, hp, hresult⟩⟩

theorem UnitChecked.executes (horder : mir.ReadsInOrder) (hselectors : mir.SelectorsChecked)
    (hb : mir.block id = some block) : (mir.executeBlock block).isSome := by
  obtain ⟨reached, hreached, hmem⟩ := @execute_isSome mir block.operations block.parameters
    (fun reader hr => by
      obtain ⟨data, hdata, -⟩ := (hunit.checked hb).operations reader hr
      rw [hdata]
      rfl)
    (fun before reader after hsplit operation ho value hv =>
      (hunit.read_defined horder hselectors hb hsplit ho hv).2)
  have hterminator : ∀ value ∈ block.terminator.reads, value ∈ reached :=
    fun value hv => (hmem value).mpr (hunit.terminator_defined hb hv).2
  simp only [MirUnit.executeBlock, hreached, some_bind]
  rw [guard_eq_some_unit.mpr hterminator]
  rfl

theorem UnitChecked.storage_exists (hselectors : mir.SelectorsChecked)
    (hb : mir.block id = some block) (hr : reader ∈ block.operations)
    (ho : mir.operation reader = some operation) {storage : StorageId}
    (hs : storage ∈ operation.kind.storages) : (mir.storage storage).isSome := by
  have hchecked := hunit.operationChecked hb hr ho
  simp only [OperationKind.storages, mem_append] at hs
  obtain (hs | hs) | hs := hs
  · obtain ⟨operand, hin, hs⟩ := mem_flatMap.mp hs
    obtain h | ⟨h, -⟩ := hunit.operand_checked hselectors hb hr ho hin
    · exact h.storage storage hs
    · exact h.storage storage hs
  · obtain ⟨collection, hc, hs⟩ := mem_flatMap.mp hs
    obtain hs | hs := mem_append.mp hs
    · obtain ⟨place, hp, rfl⟩ := mem_map.mp hs
      exact hchecked.collection collection hc place hp
    · obtain ⟨retention, hretention, hs⟩ := mem_flatMap.mp hs
      exact (hchecked.retained collection hc retention hretention).2 storage hs
  · exact hchecked.roots storage hs

theorem UnitChecked.retained_exists (hb : mir.block id = some block) (hr : reader ∈ block.operations)
    (ho : mir.operation reader = some operation) {target : BlockId}
    (ht : target ∈ operation.kind.retainedBlocks) : (mir.block target).isSome := by
  obtain ⟨retention, hretention, rfl⟩ := mem_map.mp ht
  obtain ⟨collection, hc, hretention⟩ := bind_eq_some_iff.mp (mem_toList.mp hretention)
  exact ((hunit.operationChecked hb hr ho).retained collection (mem_toList.mpr hc) retention
    (mem_toList.mpr hretention)).1

/-- **Each operation belongs to one block**, once. -/
theorem UnitChecked.listed_once (hr : (mir.operation reader).isSome) :
    ∃ id block, ∃ n : Nat, mir.block id = some block ∧ block.operations[n]? = some reader ∧
      ∀ id' block', ∀ n' : Nat, mir.block id' = some block' → block'.operations[n']? = some reader →
        id' = id ∧ n' = n := by
  obtain ⟨block, hblock, hin⟩ := mem_flatMap.mp (hunit.blocks.listed reader hr)
  obtain ⟨index, hindex, rfl⟩ := mem_iff_getElem.mp hblock
  obtain ⟨n, hn, hread⟩ := mem_iff_getElem.mp hin
  obtain ⟨slot, hslot⟩ := Option.isSome_iff_exists.mp (hunit.blocks.slots index hindex)
  have hget : mir.blocks[index]? = some mir.blocks[index] := getElem?_eq_getElem hindex
  have hposition : mir.blocks[index].operations[n]? = some reader := by
    rw [getElem?_eq_getElem hn, hread]
  refine ⟨⟨mir.unit, slot⟩, mir.blocks[index], n, ?_, hposition, ?_⟩
  · rw [block_eq_some, compactSlot_eq_some hslot]
    exact ⟨rfl, hget⟩
  · intro id' block' n' hb' hn'
    obtain ⟨hu', hb'⟩ := block_eq_some.mp hb'
    obtain ⟨hi, hn⟩ := position_unique hunit.blocks.nodup hb' hget hn' hposition
    exact ⟨blockId_ext hu' (by rw [hi, compactSlot_eq_some hslot]), hn⟩

end

/-- **Soundness of a valid unit** under the two conditions. -/
theorem sound_of_conditions (hvalid : mir.isValid = true) (horder : mir.ReadsInOrder)
    (hselectors : mir.SelectorsChecked) : mir.Sound := by
  have hunit := isValid_spec hvalid
  have hsplit : ∀ {reader : OperationId} {operations : List OperationId}, reader ∈ operations →
    ∃ before after, operations = before ++ reader :: after := fun h => append_of_mem h
  exact {
    executes := fun id block hb => hunit.executes horder hselectors hb
    earlier := fun id block hb before reader after hs operation ho value hv =>
      (hunit.read_defined horder hselectors hb hs ho hv).2
    terminates := fun id block hb value hv => (hunit.terminator_defined hb hv).2
    passes := fun id block hb => (hunit.checked hb).terminator.passes
    values := fun id block hb => ⟨(hunit.checked hb).parameters, fun reader hr operation ho value hv => by
      obtain ⟨before, after, hs⟩ := hsplit hr
      exact (hunit.read_defined horder hselectors hb hs ho hv).1,
      fun value hv => (hunit.terminator_defined hb hv).1⟩
    storages := fun id block hb =>
      ⟨fun reader hr operation ho storage hs => hunit.storage_exists hselectors hb hr ho hs, fun storage hs => by
          obtain hs | hs := mem_append.mp hs
          · obtain ⟨operand, hin, hs⟩ := mem_flatMap.mp hs
            exact ((hunit.checked hb).terminator.operands operand hin).storage storage hs
          · exact (hunit.checked hb).terminator.roots storage hs⟩
    retained := fun id block hb reader hr operation ho target ht => hunit.retained_exists hb hr ho ht
    entered := ⟨hunit.entry, validateFrameDescriptor_spec hunit.frame,
      validateCleanupContinuation_spec hunit.continuation⟩
    once := ⟨fun id block hb reader hr => by
      obtain ⟨data, hdata, -⟩ := (hunit.checked hb).operations reader hr
      rw [hdata]
      rfl,
      fun reader hr => hunit.listed_once hr⟩ }

/-- A sound unit reads nothing ahead: a value has one origin. -/
theorem readsInOrder_of_sound (howned : mir.Owned) (hvalid : mir.isValid = true) (h : mir.Sound) :
    mir.ReadsInOrder := by
  have hunit := isValid_spec hvalid
  intro id block hb
  rw [pairwise_iff_getElem]
  intro i j hi hj hij operation ho value hv hresult
  obtain ⟨data, hdata, horigin⟩ := howned.results _ value hresult
  have hbefore := h.earlier id block hb (block.operations.take i) block.operations[i]
    (block.operations.drop (i + 1)) (by rw [← drop_eq_getElem_cons hi, take_append_drop]) operation ho
    value hv
  obtain ⟨data', hdata', hwhere⟩ := origin_of_definedBy howned hb hbefore
  rw [hdata] at hdata'
  cases hdata'
  obtain hparameter | ⟨producer, hp, hproducer, -⟩ := hwhere
  · rw [horigin] at hparameter
    cases hparameter
  · rw [horigin] at hproducer
    cases hproducer
    obtain ⟨k, hk, he⟩ := mem_take_iff_getElem.mp hp
    have := (hunit.nodup hb).getElem_inj_iff.mp he
    omega

theorem selectorsChecked_of_sound (howned : mir.Owned) (h : mir.Sound) : mir.SelectorsChecked := by
  intro id block hb reader hr operation ho place hkind operand hin
  have hoperand : operand ∈ operation.kind.operands := by
    rw [hkind, operands_materializeStatic]
    exact hin
  obtain ⟨before, after, hsplit⟩ := append_of_mem hr
  refine ⟨fun value hid => ?_, fun storage hs => ?_⟩
  · have hv : value ∈ operation.kind.reads := mem_filterMap.mpr ⟨operand, hoperand, hid⟩
    obtain ⟨data, hdata, hwhere⟩ := origin_of_definedBy howned hb
      (h.earlier id block hb before reader after hsplit operation ho value hv)
    simp only [validateValueAt, bind_eq_bind, check_bind_eq_some, validateValue_eq_some]
    refine ⟨by rw [hdata]; rfl, ?_⟩
    rw [hdata, Option.bind_some, guard_eq_some_unit]
    obtain horigin | ⟨producer, hp, horigin, -⟩ := hwhere
    · simp [availableAt, horigin]
    · have : producer ∈ block.operations := by
        rw [hsplit]
        exact mem_append_left _ hp
      simp [availableAt, horigin, hb, this]
  · apply (h.storages id block hb).1 reader hr operation ho
    simp only [OperationKind.storages, mem_append]
    exact .inl (.inl (mem_flatMap.mpr ⟨operand, hoperand, hs⟩))

/-- **The validator and execution.** A unit that `is_valid` accepts is sound exactly when no operation
reads the result of an operation listed after it, and the selectors of materialized statics, which
`is_valid` does not look at, would pass its check. -/
theorem valid_sound_iff (mir : MirUnit) (howned : mir.Owned) (hvalid : mir.isValid = true) :
    mir.Sound ↔ mir.ReadsInOrder ∧ mir.SelectorsChecked :=
  ⟨fun h => ⟨readsInOrder_of_sound howned hvalid h, selectorsChecked_of_sound howned h⟩,
    fun h => sound_of_conditions hvalid h.1 h.2⟩

/-! ## 5. Runs of the validator -/

/-- `Owned`, read off the tables. -/
def MirUnit.ownsTables (mir : MirUnit) : Bool :=
  (mir.blocks.zipIdx.all fun entry => entry.1.parameters.all fun value =>
     (mir.value value).any (·.origin == .blockParameter ⟨mir.unit, UInt32.ofNat entry.2⟩))
    && mir.operations.zipIdx.all fun entry => entry.1.result.all fun value =>
      (mir.value value).any (·.origin == .operation ⟨mir.unit, UInt32.ofNat entry.2⟩)

theorem owned_of_ownsTables (h : mir.ownsTables = true) : mir.Owned := by
  simp only [MirUnit.ownsTables, Bool.and_eq_true, all_eq_true, Option.any_eq_true, beq_iff_eq,
    Option.all_eq_true] at h
  constructor
  · intro id block hb value hv
    obtain ⟨data, hdata, horigin⟩ := h.1 _ (entry_of_block hb) value hv
    refine ⟨data, hdata, ?_⟩
    rw [horigin, ← (block_eq_some.mp hb).1, UInt32.ofNat_toNat]
  · intro id value hresult
    obtain ⟨operation, ho, hv⟩ := bind_eq_some_iff.mp hresult
    obtain ⟨hu, ho⟩ := operation_eq_some.mp ho
    obtain ⟨data, hdata, horigin⟩ := h.2 (operation, id.slot.toNat) (mem_zipIdx_iff_getElem?.mpr ho)
      value hv
    refine ⟨data, hdata, ?_⟩
    rw [horigin, ← hu, UInt32.ofNat_toNat]

/-- Two operations of one block, the second of which reads the result of the first. `listed` is the list
of the block. -/
def twoOperations (listed : List OperationId) : MirUnit where
  unit := ⟨0⟩
  runtimeAbi := ⟨1, 0⟩
  kind := .synchronous
  frameDescriptor := none
  cleanupContinuation := none
  entry := ⟨⟨0⟩, 0⟩
  blocks := [⟨.ordinary, [], listed, .return none none⟩]
  operations := [⟨.unary (.immediate (.boolean true) 0), some ⟨⟨0⟩, 0⟩⟩, ⟨.unary (.value ⟨⟨0⟩, 0⟩), some ⟨⟨0⟩, 1⟩⟩]
  storages := []
  values := [⟨0, .operation ⟨⟨0⟩, 0⟩⟩, ⟨0, .operation ⟨⟨0⟩, 1⟩⟩]

/-- The host of a product with one entry and one static. The place of the static selects an element by a
value that the unit does not have. -/
def strayHost : MirUnit where
  unit := ⟨0⟩
  runtimeAbi := ⟨1, 0⟩
  kind := .executableHost ⟨[⟨.synchronous, .unit⟩], ⟨1, 0⟩, []⟩
  frameDescriptor := none
  cleanupContinuation := none
  entry := ⟨⟨0⟩, 0⟩
  blocks := [⟨.ordinary, [], (List.range 8).map fun slot => ⟨⟨0⟩, UInt32.ofNat slot⟩, .return none none⟩]
  operations := [
    ⟨.host .beginProductEntry, none⟩,
    ⟨.host (.materializeStatic (.mk ⟨⟨0⟩, 0⟩ [.mk (.index (.value ⟨⟨0⟩, 0⟩)) 0 1] 1)), none⟩,
    ⟨.host (.executeRoot 0 .callableBody .synchronous ⟨.rootExecution, ⟨1, 0⟩⟩), none⟩,
    ⟨.host (.observeRootTerminal 0 ⟨.rootTerminalObservation, ⟨1, 0⟩⟩), none⟩,
    ⟨.host (.resolveRootTerminal 0 none ⟨.rootCompletionResolution, ⟨1, 0⟩⟩ ⟨.panicReporting, ⟨1, 0⟩⟩
      ⟨.entryFailureReporting, ⟨1, 0⟩⟩), none⟩,
    ⟨.host .beginStaticCleanup, none⟩,
    ⟨.host (.reportCleanupIncidents ⟨.cleanupIncidentReporting, ⟨1, 0⟩⟩), none⟩,
    ⟨.host (.structuredShutdown none ⟨.structuredShutdown, ⟨1, 0⟩⟩), none⟩]
  storages := [⟨.static 0, 0⟩]
  values := []

/-- Both defects on accepted units: a selector that is no value of the unit, and a list that puts a
reader before its producer. -/
theorem accepted_units_read_undefined_values : (strayHost.Owned ∧ strayHost.isValid = true ∧ ¬ strayHost.Sound) ∧
    ((twoOperations [⟨⟨0⟩, 1⟩, ⟨⟨0⟩, 0⟩]).Owned ∧ (twoOperations [⟨⟨0⟩, 1⟩, ⟨⟨0⟩, 0⟩]).isValid = true ∧
      ¬ (twoOperations [⟨⟨0⟩, 1⟩, ⟨⟨0⟩, 0⟩]).Sound) := by
  refine ⟨⟨owned_of_ownsTables (by decide +kernel), by decide +kernel, fun h => ?_⟩,
    owned_of_ownsTables (by decide +kernel), by decide +kernel, fun h => ?_⟩
  · have := h.executes ⟨⟨0⟩, 0⟩ _ rfl
    revert this
    decide +kernel
  · have := h.executes ⟨⟨0⟩, 0⟩ _ rfl
    revert this
    decide +kernel

/-- The same two operations in the order of the table. -/
theorem two_operations_in_order : (twoOperations [⟨⟨0⟩, 0⟩, ⟨⟨0⟩, 1⟩]).isValid = true ∧
    (twoOperations [⟨⟨0⟩, 0⟩, ⟨⟨0⟩, 1⟩]).Sound := by
  have hvalid : (twoOperations [⟨⟨0⟩, 0⟩, ⟨⟨0⟩, 1⟩]).isValid = true := by decide +kernel
  refine ⟨hvalid, (valid_sound_iff _ (owned_of_ownsTables (by decide +kernel)) hvalid).mpr ⟨?_, ?_⟩⟩
  · intro id block hb
    obtain ⟨-, hb⟩ := block_eq_some.mp hb
    obtain rfl : _ = block := mem_singleton.mp (mem_of_getElem? hb) |>.symm
    rw [pairwise_cons]
    refine ⟨?_, pairwise_singleton _ _⟩
    intro later hl operation ho value hv
    cases Option.some.inj ho
    cases hv
  · intro id block hb reader hr operation ho place hkind
    obtain ⟨-, ho⟩ := operation_eq_some.mp ho
    have hmem : operation ∈ (twoOperations [⟨⟨0⟩, 0⟩, ⟨⟨0⟩, 1⟩]).operations := mem_of_getElem? ho
    simp only [twoOperations, mem_cons, not_mem_nil, or_false] at hmem
    obtain rfl | rfl := hmem
    · cases hkind
    · cases hkind

end Bray.Mir
