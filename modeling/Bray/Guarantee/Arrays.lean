/-
  File:      Bray/Guarantee/Arrays.lean
  Subject:   ELEMENTS COUNTED FROM THE END (`ExecutionCondition::project`).

  An array value is written down with how it came about: as a value nothing of which is recorded,
  a literal, a repetition, or by replacing a component of an array. Counted from the start, every
  element reads as what it is (`component_element`). Counted from the end, the source takes the
  number of RECORDED elements for the length: `fromEnd_iff` says when that is harmless.
-/
import Bray.Guarantee.Component
import Mathlib.Data.List.Perm.Subperm

namespace Bray.Guarantee

open List

namespace ExecutionCondition

/-! ## 1. Projecting -/

/-- The component that a storage projection selects. -/
def projectionKind : StorageProjection → Option ConstantProjectionKind
  | .nullableValue => some .nullableValue
  | .productField field => some (.productField field)
  | .activeUnionPayloadField _ field => some (.unionPayloadField field)
  | .tupleElement index => some (.tupleElement index)
  | .elementFromStart index => some (.arrayElementOrdinal index)
  | _ => none

/-- The ordinal of an element counted from the end, in 32-bit arithmetic. -/
def fromEndOrdinal (length index : Nat) : Option Nat :=
  let back := (index + 1) % 2 ^ 32
  if length < 2 ^ 32 ∧ back ≤ length then some (length - back) else none

/-- `project` -/
def project (condition : ExecutionCondition) (projection : StorageProjection) :
    ExecutionCondition :=
  match condition, projection with
  | .constructed base fields, .elementFromEnd index =>
    match fromEndOrdinal fields.length index with
    | some index => (constructed base fields).component (.arrayElementOrdinal index)
    | none => .unknown
  | condition, projection => match projectionKind projection with
    | some kind => condition.component kind
    | none => match condition with
      | .constructed _ fields => match fields.find? fun x => x.1 == projection with
        | some x => x.2
        | none => .unknown
      | _ => .unknown

/-- What is recorded of a value. -/
def recorded : ExecutionCondition → Fields
  | .constructed _ fields => fields
  | _ => []

end ExecutionCondition

open ExecutionCondition (component_constructed component_withComponent component_withComponent_other
  project fromEndOrdinal recorded recordField Fields workLimit)

/-! ## 2. Array values -/

/-- How an array value came about. -/
inductive ArrayValue where
  /-- A value nothing of which is recorded. -/
  | whole (value : ExecutionCondition) (length : Nat)
  | literal (expression : Payload) (elements : List ExecutionCondition)
  | repeated (expression : Payload) (count : Nat) (element : ExecutionCondition)
  /-- `with_component` at a path that starts at an element. -/
  | updated (array : ArrayValue) (index : Nat) (rest : List ConstantProjectionKind)
    (value : ExecutionCondition)

namespace ArrayValue

def length : ArrayValue → Nat
  | whole _ length => length
  | literal _ elements => elements.length
  | repeated _ count _ => count
  | updated array _ _ _ => array.length

/-- **The term of the value**: a repetition records no more than `WORK_LIMIT` elements. -/
def condition : ArrayValue → ExecutionCondition
  | whole value _ => value
  | literal expression elements =>
    .constructed (.expression expression)
      (elements.mapIdx fun index element => (.elementFromStart index, element))
  | repeated expression count element =>
    .constructed (.expression expression)
      ((List.range (min count workLimit)).map fun index => (.elementFromStart index, element))
  | updated array index rest value =>
    array.condition.withComponent (.arrayElementOrdinal index :: rest) value

/-- The updates are within the array, and a whole value is no snapshot. -/
def Valid : ArrayValue → Prop
  | whole value _ => ∀ base fields, value ≠ .constructed base fields
  | literal _ _ | repeated _ _ _ => True
  | updated array index _ _ => array.Valid ∧ index < array.length

variable {V : Type} (val : ExecutionCondition → Option V)

def element : ArrayValue → Nat → Option V
  | whole value _, index => val (value.component (.arrayElementOrdinal index))
  | literal _ elements, index => elements[index]?.bind val
  | repeated _ _ element, _ => val element
  | updated array at_ rest value, index =>
    if index = at_ then
      val ((array.condition.component (.arrayElementOrdinal at_)).withComponent rest value)
    else array.element index

/-- Unknown has no value, and an element of a repetition has the value that is repeated. -/
def Consistent : ArrayValue → Prop
  | whole _ _ | literal _ _ => val .unknown = none
  | repeated expression count element =>
    val .unknown = none ∧ ∀ index < count,
      val (.projection (.arrayElementOrdinal index) (.expression expression)) = val element
  | updated array _ _ _ => array.Consistent

/-! ## 3. Elements counted from the start -/

theorem component_array (base : ExecutionCondition) (fields : Fields) (index : Nat) :
    (ExecutionCondition.constructed base fields).component (.arrayElementOrdinal index) =
      match fields.find? fun x => x.1 == .elementFromStart index with
      | some x => x.2
      | none => (ExecutionCondition.componentBase base fields).component
        (.arrayElementOrdinal index) :=
  @component_constructed base fields (.arrayElementOrdinal index) rfl nofun

theorem find?_literal (elements : List ExecutionCondition) (start index : Nat) :
    (elements.mapIdx fun i element => (StorageProjection.elementFromStart (start + i), element)).find?
        (fun x => x.1 == .elementFromStart (start + index)) =
      elements[index]?.map fun element => (.elementFromStart (start + index), element) := by
  induction elements generalizing start index with
  | nil => rfl
  | cons x xs ih =>
    rw [mapIdx_cons, find?_cons]
    cases index with
    | zero => simp
    | succ index =>
      have ne : (StorageProjection.elementFromStart (start + 0) ==
          .elementFromStart (start + (index + 1))) = false := by
        rw [beq_eq_false_iff_ne, ne_eq, StorageProjection.elementFromStart.injEq]
        omega
      simp only [ne, getElem?_cons_succ]
      have shift := ih (start + 1) index
      simp only [Nat.add_assoc, Nat.add_comm 1] at shift
      exact shift

theorem find?_repeated (element : ExecutionCondition) (count index : Nat) :
    ((List.range count).map fun i => (StorageProjection.elementFromStart i, element)).find?
        (fun x => x.1 == .elementFromStart index) =
      if index < count then some (.elementFromStart index, element) else none := by
  have key : ((fun x : StorageProjection × ExecutionCondition => x.1 == .elementFromStart index) ∘
      fun i => (.elementFromStart i, element)) = fun i => i == index := by
    funext i
    rw [Function.comp, Bool.eq_iff_iff, beq_iff_eq, beq_iff_eq, StorageProjection.elementFromStart.injEq]
  rw [find?_map, key]
  split
  · next h =>
    have found : (List.range count).find? (fun i => i == index) = some index :=
      find?_range_eq_some.mpr ⟨beq_self_eq_true index, mem_range.mpr h, fun j hj => by
        rw [Bool.not_eq_true', beq_eq_false_iff_ne]
        omega⟩
    rw [found]
    rfl
  · next h =>
    have missing : (List.range count).find? (fun i => i == index) = none :=
      find?_range_eq_none.mpr fun j hj => by
        rw [Bool.not_eq_true', beq_eq_false_iff_ne]
        omega
    rw [missing]
    rfl

/-- **Every element reads as what it is.** -/
theorem component_element (array : ArrayValue) (valid : array.Valid)
    (consistent : array.Consistent val) {index : Nat} (bound : index < array.length) :
    val (array.condition.component (.arrayElementOrdinal index)) = array.element val index := by
  induction array with
  | whole value length => rfl
  | literal expression elements =>
    have find := find?_literal elements 0 index
    simp only [Nat.zero_add] at find
    rw [condition, component_array, find]
    simp [element, getElem?_eq_getElem bound]
  | repeated expression count x =>
    rw [condition, component_array, find?_repeated]
    by_cases early : index < min count workLimit
    · rw [if_pos early]
      rfl
    · rw [if_neg early]
      have base : ExecutionCondition.componentBase (.expression expression)
          ((List.range (min count workLimit)).map fun i =>
            (StorageProjection.elementFromStart i, x)) = .expression expression := by
        unfold ExecutionCondition.componentBase
        rw [find?_eq_none.mpr fun y hy => ?_]
        obtain ⟨i, _, rfl⟩ := mem_map.mp hy
        simp
      rw [base]
      exact consistent.2 index bound
  | updated array at_ rest value ih =>
    obtain ⟨valid, _⟩ := valid
    simp only [condition, element]
    split
    · next h => rw [h, component_withComponent _ rfl]
    · next h =>
      rw [component_withComponent_other _ rfl (fun e => h (ConstantProjectionKind.arrayElementOrdinal.inj e)) (.inl rfl)]
      exact ih valid consistent bound

/-! ## 4. What is recorded -/

theorem recorded_withField (c : ExecutionCondition) (field : StorageProjection)
    (value : ExecutionCondition) :
    recorded (c.withField field value) = recordField (recorded c) field value := by
  unfold ExecutionCondition.withField
  split
  · rfl
  · next plain =>
    have none : recorded c = [] := by
      unfold recorded
      split
      · exact absurd rfl (plain _ _)
      · rfl
    rw [none]
    rfl

theorem keys_replaceField (field : StorageProjection) (value : ExecutionCondition)
    (fields : Fields) :
    (ExecutionCondition.replaceField field value fields).map Prod.fst = fields.map Prod.fst := by
  induction fields with
  | nil => rfl
  | cons x fields ih =>
    simp only [ExecutionCondition.replaceField]
    split
    · rfl
    · rw [map_cons, map_cons, ih]

theorem nodup_recordField {fields : Fields} (field : StorageProjection) (value : ExecutionCondition)
    (nodup : (fields.map Prod.fst).Nodup) :
    ((recordField fields field value).map Prod.fst).Nodup ∧
      ∀ x ∈ (recordField fields field value).map Prod.fst, x = field ∨ x ∈ fields.map Prod.fst := by
  unfold recordField
  split
  · rw [keys_replaceField]
    exact ⟨nodup, fun x hx => .inr hx⟩
  · next absent =>
    have keys := (perm_insertionSort (fun x y : StorageProjection × ExecutionCondition =>
      x.1.code ≤ y.1.code) (fields ++ [(field, value)])).map Prod.fst
    rw [map_append] at keys
    have fresh : field ∉ fields.map Prod.fst := by
      intro mem
      obtain ⟨x, hx, e⟩ := mem_map.mp mem
      exact absent (any_eq_true.mpr ⟨x, hx, by simp [e]⟩)
    refine ⟨keys.nodup_iff.mpr ?_, fun x hx => ?_⟩
    · refine nodup_append.mpr ⟨nodup, by simp, fun x hx y hy e => fresh ?_⟩
      obtain rfl : y = field := by simpa using hy
      exact e ▸ hx
    · rcases mem_append.mp (keys.mem_iff.mp hx) with hx | hx
      · exact .inr hx
      · exact .inl (by simpa using hx)

theorem elements_counted {keys : List StorageProjection} {count length : Nat} (le : count ≤ length)
    (eq : keys = (List.range count).map .elementFromStart) :
    keys.Nodup ∧ ∀ x ∈ keys, ∃ index < length, x = .elementFromStart index := by
  subst eq
  constructor
  · exact nodup_range.map fun i j e => StorageProjection.elementFromStart.inj e
  · intro x hx
    obtain ⟨index, hi, rfl⟩ := mem_map.mp hx
    exact ⟨index, (mem_range.mp hi).trans_le le, rfl⟩

theorem recorded_elements (array : ArrayValue) (valid : array.Valid) :
    ((recorded array.condition).map Prod.fst).Nodup ∧
      ∀ x ∈ (recorded array.condition).map Prod.fst,
        ∃ index < array.length, x = .elementFromStart index := by
  induction array with
  | whole value length =>
    have none : recorded value = [] := by
      unfold recorded
      split
      · exact absurd rfl (valid _ _)
      · rfl
    simp [condition, none]
  | literal expression elements =>
    refine elements_counted le_rfl (ext_getElem ?_ fun i h₁ h₂ => ?_)
    · simp [condition, recorded, length]
    · simp [condition, recorded]
  | repeated expression count x =>
    refine elements_counted (min_le_left count workLimit) ?_
    simp [condition, recorded, Function.comp_def]
  | updated array at_ rest value ih =>
    obtain ⟨valid, bound⟩ := valid
    obtain ⟨nodup, inside⟩ := ih valid
    simp only [condition, ExecutionCondition.withComponent, ExecutionCondition.recordedAs, length]
    split
    · exact ⟨nodup, inside⟩
    · rw [recorded_withField]
      obtain ⟨nodup', added⟩ := nodup_recordField (.elementFromStart at_) _ nodup
      refine ⟨nodup', fun x hx => ?_⟩
      rcases added x hx with rfl | hx
      · exact ⟨at_, bound, rfl⟩
      · exact inside x hx

theorem recorded_length_le (array : ArrayValue) (valid : array.Valid) :
    (recorded array.condition).length ≤ array.length := by
  obtain ⟨nodup, inside⟩ := recorded_elements array valid
  have sub : (recorded array.condition).map Prod.fst ⊆
      (List.range array.length).map StorageProjection.elementFromStart := by
    intro x hx
    obtain ⟨index, bound, rfl⟩ := inside x hx
    exact mem_map_of_mem (mem_range.mpr bound)
  simpa using (subperm_of_subset nodup sub).length_le

/-! ## 5. Elements counted from the end -/

/-- The element that `project` takes for the one at `index` from the end, if any: counted from
    the number of recorded elements. -/
def countedBack (array : ArrayValue) (index : Nat) : Option Nat :=
  match array.condition with
  | .constructed _ fields => fromEndOrdinal fields.length index
  | _ => none

theorem project_fromEnd (array : ArrayValue) (index : Nat) :
    project array.condition (.elementFromEnd index) =
      match array.countedBack index with
      | some start => array.condition.component (.arrayElementOrdinal start)
      | none => .unknown := by
  unfold countedBack
  cases array.condition <;> rfl

theorem countedBack_lt {array : ArrayValue} (valid : array.Valid) {index start : Nat}
    (bound : index < array.length) (ordinal : index < 2 ^ 32)
    (counted : array.countedBack index = some start) : start < array.length := by
  have recorded_le := recorded_length_le array valid
  unfold countedBack at counted
  split at counted
  · next base fields e =>
    rw [e] at recorded_le
    simp only [recorded] at recorded_le
    obtain ⟨⟨small, _⟩, counted⟩ := Option.ite_none_right_eq_some.mp counted
    obtain rfl := Option.some.inj counted
    rcases Nat.lt_or_ge (index + 1) (2 ^ 32) with below | wraps
    · omega
    · omega
  · cases counted

theorem consistent_unknown {array : ArrayValue} (consistent : array.Consistent val) :
    val .unknown = none := by
  induction array with
  | whole _ _ => exact consistent
  | literal _ _ => exact consistent
  | repeated _ _ _ => exact consistent.1
  | updated _ _ _ _ ih => exact ih consistent

/-- **Counting from the end finds the element exactly when** the number of recorded elements leads
    to no element, or to one that has the value of the right one or none. With all elements
    recorded it does. -/
theorem fromEnd_iff (array : ArrayValue) (valid : array.Valid) (consistent : array.Consistent val)
    {index : Nat} (bound : index < array.length) (ordinal : index < 2 ^ 32) :
    ((val (project array.condition (.elementFromEnd index)) = none ∨
        val (project array.condition (.elementFromEnd index)) =
          array.element val (array.length - 1 - index)) ↔
      ∀ start, array.countedBack index = some start →
        array.element val start = none ∨
          array.element val start = array.element val (array.length - 1 - index)) ∧
    ((recorded array.condition).length = array.length → array.length < 2 ^ 32 →
      ∀ start, array.countedBack index = some start → start = array.length - 1 - index) := by
  constructor
  · rw [project_fromEnd]
    cases counted : array.countedBack index with
    | none => simp [consistent_unknown val consistent]
    | some start =>
      simp only [component_element val array valid consistent
        (countedBack_lt valid bound ordinal counted), Option.some.injEq, forall_eq']
  · intro all small start counted
    unfold countedBack at counted
    split at counted
    · next base fields e =>
      rw [e] at all
      simp only [recorded] at all
      obtain ⟨_, counted⟩ := Option.ite_none_right_eq_some.mp counted
      obtain rfl := Option.some.inj counted
      omega
    · cases counted

def falseInputsValue : ExecutionCondition → Option Bool
  | .boolean value => some value
  | .input _ => some false
  | _ => none

/-- An array of two elements, of which the first is set. -/
def firstSet : ArrayValue :=
  .updated (.whole (.input ⟨.argument 0, []⟩) 2) 0 [] (.boolean true)

/-- **The first element is taken for the last**: it is the only one that is recorded. -/
theorem recorded_taken_for_all :
    ¬ ∀ (V : Type) (val : ExecutionCondition → Option V) (array : ArrayValue), array.Valid →
      array.Consistent val → ∀ index < array.length, index < 2 ^ 32 →
        val (project array.condition (.elementFromEnd index)) = none ∨
          val (project array.condition (.elementFromEnd index)) =
            array.element val (array.length - 1 - index) := by
  intro sound
  have valid : firstSet.Valid := ⟨nofun, by decide⟩
  have last := sound Bool falseInputsValue firstSet valid rfl 0 (by decide) (by decide)
  revert last
  decide

/-- Of two elements written down, the last one is found. -/
theorem fromEnd_iff_literal :
    let array : ArrayValue := .literal 0 [.boolean true, .boolean false]
    falseInputsValue (project array.condition (.elementFromEnd 0)) = none ∨
      falseInputsValue (project array.condition (.elementFromEnd 0)) =
        array.element falseInputsValue 1 := by
  intro array
  have counted := fromEnd_iff falseInputsValue array trivial rfl
    (show 0 < array.length by decide) (by decide)
  exact counted.1.mpr fun start h => .inr (by rw [counted.2 rfl (by decide) start h])

end ArrayValue

end Bray.Guarantee
