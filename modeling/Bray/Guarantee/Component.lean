/-
  File:      Bray/Guarantee/Component.lean
  Subject:   COMPONENTS OF SNAPSHOTS (`condition/values.rs`: `component`, `with_component`, `project`).

  * `component_withComponent` -- a replaced product field, tuple element or array element is what
    is read back, with the rest of the path replaced in it;
  * `component_withComponent_other` -- any other component is as it was.

  `component` looks through borrows and through the payload of an updated nullable: there the
  source calls itself on its own result. The model counts the calls down from the height of the
  term, which is more than it takes (`componentWithin_eq`).
-/
import Bray.Guarantee.Normal
import Mathlib.Data.List.Sort

namespace Bray.Guarantee

open List

/-! ## 1. Projections -/

/-- The position of a projection in the derived order: its variant, then what it holds. -/
def StorageProjection.code : StorageProjection → List Nat
  | .productField field => [0, field]
  | .tupleElement index => [1, index]
  | .elementFromStart index => [2, index]
  | .elementFromEnd index => [3, index]
  | .activeUnionPayloadField variant field => [4, variant, field]
  | .element selector => [5, selector]
  | .sliceRange start stop => 6 :: bound start ++ bound stop
  | .nullableValue => [7]
  | .ownedTarget => [8]
  | .uninitPayload => [9]
where
  bound : Option Payload → List Nat
    | none => [0]
    | some expression => [1, expression]

/-- `component` has an answer for the projection. -/
def ConstantProjectionKind.isSupported : ConstantProjectionKind → Bool
  | .nullableValue | .productField _ | .unionPayloadField _ | .tupleElement _
  | .arrayElementOrdinal _ => true
  | .arrayElement _ | .arraySlice _ _ => false

/-- A recorded field is the one that the projection selects. -/
def StorageProjection.answers (candidate : StorageProjection) :
  ConstantProjectionKind → Bool
  | .productField field => candidate == .productField field
  | .unionPayloadField field => match candidate with
    | .activeUnionPayloadField _ candidate => candidate == field
    | _ => false
  | .tupleElement index => candidate == .tupleElement index
  | .arrayElementOrdinal index => candidate == .elementFromStart index
  | _ => false

def ExecutionPlace.component (place : ExecutionPlace) (projection : ConstantProjectionKind) :
  ExecutionPlace :=
  { place with projections := place.projections ++ [projection] }

namespace ExecutionCondition

/-- The fields of a snapshot. -/
abbrev Fields := List (StorageProjection × ExecutionCondition)

/-! ## 2. Reading a component -/

mutual
/-- What `component` can go down. -/
def height : ExecutionCondition → Nat
  | .borrowed value | .present value | .projection _ value => value.height + 1
  | .constructed base fields => base.height + heightFields fields + 1
  | _ => 0
termination_by structural c => c
def heightFields : Fields → Nat
  | [] => 0
  | (_, x) :: xs => x.height + heightFields xs
termination_by structural c => c
end

/-- `component`, with a bound on the calls. -/
def componentWithin : Nat → ExecutionCondition → ConstantProjectionKind → ExecutionCondition
  | 0, _, _ => .unknown
  | calls + 1, condition, kind =>
    if kind.isSupported then
      match condition with
      | .present value => if kind = .nullableValue then value else .projection kind (.present value)
      | .input place => .input (place.component kind)
      | .borrowed value => componentWithin calls value kind
      | .projection .nullableValue (.constructed base fields) =>
        match fields.find? fun x => x.1 == .nullableValue with
        | some x => componentWithin calls x.2 kind
        | none =>
          componentWithin calls
            (componentWithin calls (componentBase base fields) .nullableValue) kind
      | .constructed base fields =>
        if kind = .nullableValue then .projection kind (.constructed base fields)
        else match fields.find? fun x => x.1.answers kind with
          | some x => x.2
          | none => componentWithin calls (componentBase base fields) kind
      | .unknown => .unknown
      | value => .projection kind value
    else .unknown

/-- **One component of a value.** -/
def component (condition : ExecutionCondition) (kind : ConstantProjectionKind) :
  ExecutionCondition :=
  componentWithin (condition.height + 1) condition kind

theorem height_of_mem {fields : Fields} {x : StorageProjection × ExecutionCondition}
    (h : x ∈ fields) : x.2.height ≤ heightFields fields := by
  induction fields with
  | nil => cases h
  | cons y ys ih =>
    rcases mem_cons.mp h with rfl | h
    · exact Nat.le_add_right _ _
    · exact (ih h).trans (Nat.le_add_left _ _)

theorem height_find? {p : StorageProjection × ExecutionCondition → Bool} {fields : Fields}
    {x : StorageProjection × ExecutionCondition} (h : fields.find? p = some x) : x.2.height ≤ heightFields fields :=
  height_of_mem (mem_of_find?_eq_some h)

theorem height_componentBase (base : ExecutionCondition) (fields : Fields) :
    (componentBase base fields).height ≤ base.height + heightFields fields := by
  unfold componentBase
  split
  · next h => exact (height_find? h).trans (Nat.le_add_left _ _)
  · exact Nat.le_add_right _ _

/-- A component is at most one projection higher. -/
theorem height_componentWithin (calls : Nat) (c : ExecutionCondition) (kind : ConstantProjectionKind) :
    (componentWithin calls c kind).height ≤ c.height + 1 := by
  induction calls generalizing c kind with
  | zero => exact Nat.zero_le _
  | succ calls ih =>
    simp only [componentWithin]
    split
    · split
      · split
        · simp only [height]; omega
        · exact le_rfl
      · exact Nat.zero_le _
      · exact (ih _ _).trans (by simp only [height]; omega)
      · next base fields =>
        have down := height_componentBase base fields
        split
        · next h =>
          have := height_find? h
          exact (ih _ _).trans (by simp only [height]; omega)
        · have inner := ih (componentBase base fields) .nullableValue
          exact (ih _ _).trans (by simp only [height]; omega)
      · next base fields =>
        have down := height_componentBase base fields
        split
        · exact le_rfl
        · split
          · next h =>
            have := height_find? h
            simp only [height]; omega
          · exact (ih _ _).trans (by simp only [height]; omega)
      · exact Nat.zero_le _
      · exact le_rfl
    · exact Nat.zero_le _

/-- More calls than the height change nothing. -/
theorem componentWithin_eq {m n : Nat} {c : ExecutionCondition} (hm : c.height < m)
    (hn : c.height < n) (kind : ConstantProjectionKind) : componentWithin m c kind = componentWithin n c kind := by
  induction m generalizing n c kind with
  | zero => exact absurd hm (Nat.not_lt_zero _)
  | succ m ih =>
    cases n with
    | zero => exact absurd hn (Nat.not_lt_zero _)
    | succ n =>
      simp only [componentWithin]
      split
      · split
        · rfl
        · rfl
        · exact ih (by simp only [height] at hm; omega) (by simp only [height] at hn; omega) _
        · next base fields =>
          have down := height_componentBase base fields
          simp only [height] at hm hn
          split
          · next h =>
            have := height_find? h
            exact ih (by omega) (by omega) _
          · rw [ih (show (componentBase base fields).height < m by omega)
            (show (componentBase base fields).height < n by omega)]
            have inner := height_componentWithin n (componentBase base fields) .nullableValue
            exact ih (by omega) (by omega) _
        · next base fields =>
          have down := height_componentBase base fields
          simp only [height] at hm hn
          split
          · rfl
          · split
            · rfl
            · exact ih (by omega) (by omega) _
        · rfl
        · rfl
      · rfl

/-- **A component of a snapshot**: what is recorded of it, else the component of the base. -/
theorem component_constructed (base : ExecutionCondition) (fields : Fields)
    {kind : ConstantProjectionKind} (supported : kind.isSupported = true) (plain : kind ≠ .nullableValue) :
    (constructed base fields).component kind = match fields.find? fun x => x.1.answers kind with
    | some x => x.2 | none => (componentBase base fields).component kind := by
  have down := height_componentBase base fields
  unfold component
  rw [componentWithin.eq_def]
  simp only [supported, if_true, plain, if_false, height]
  split
  · rfl
  · exact componentWithin_eq (by omega) (by omega) kind

variable {kind : ConstantProjectionKind}

theorem component_unsupported (c : ExecutionCondition)
    (unsupported : kind.isSupported = false) : c.component kind = .unknown := by
  simp [component, componentWithin, unsupported]

/-! ## 3. Replacing a component -/

/-- `iter_mut().find(..)`: the first field that is recorded as `projection` gets the value. -/
def replaceField (projection : StorageProjection) (value : ExecutionCondition) : Fields → Fields
  | [] => []
  | x :: fields =>
    if x.1 = projection then (x.1, value) :: fields else x :: replaceField projection value fields

def recordField (fields : Fields) (projection : StorageProjection) (value : ExecutionCondition) :
  Fields :=
  if fields.any fun x => x.1 == projection then replaceField projection value fields
  else (fields ++ [(projection, value)]).insertionSort fun x y => x.1.code ≤ y.1.code

/-- What a component is recorded as. A payload field only where a variant already holds it. -/
def recordedAs (condition : ExecutionCondition) :
  ConstantProjectionKind → Option StorageProjection
  | .productField field => some (.productField field)
  | .tupleElement index => some (.tupleElement index)
  | .arrayElementOrdinal index => some (.elementFromStart index)
  | .nullableValue => some .nullableValue
  | .unionPayloadField field => match condition with
    | .constructed _ fields =>
      (fields.find? fun x => x.1.answers (.unionPayloadField field)).map Prod.fst
    | _ => none
  | _ => none

/-- The snapshot with a field set. -/
def withField (condition : ExecutionCondition) (projection : StorageProjection)
  (value : ExecutionCondition) : ExecutionCondition :=
  match condition with
  | .constructed base fields => .constructed base (recordField fields projection value)
  | condition => .constructed condition (recordField [] projection value)

/-- **The value with the component at the path replaced.** -/
def withComponent (condition : ExecutionCondition) :
  List ConstantProjectionKind → ExecutionCondition → ExecutionCondition
  | [], value => value
  | first :: rest, value => match condition.recordedAs first with
    | none => .unknown
    | some field =>
      let child := (condition.component first).withComponent rest value
      if child = condition.component first then condition else condition.withField field child

/-- The components of a path, one after the other. -/
def components (condition : ExecutionCondition) (path : List ConstantProjectionKind) :
  ExecutionCondition :=
  path.foldl component condition

theorem find?_replaceField {fields : Fields} (projection : StorageProjection)
    (value : ExecutionCondition) (present : fields.any (fun x => x.1 == projection) = true)
    (q : StorageProjection) : (replaceField projection value fields).find? (fun x => x.1 == q) =
      if projection = q then some (projection, value) else fields.find? fun x => x.1 == q := by
  induction fields with
  | nil => cases present
  | cons x fields ih =>
    simp only [replaceField]
    by_cases here : x.1 = projection
    · subst here
      simp only [if_true, find?_cons]
      split <;> simp_all
    · simp only [here, if_false, find?_cons]
      have later : fields.any (fun x => x.1 == projection) = true := by
        simpa [here] using present
      rw [ih later]
      split
      · next e =>
        rw [beq_iff_eq] at e
        simp [← e, Ne.symm here]
      · rfl

/-- The sort is stable: elements that are in order either way stay as they are. -/
theorem filter_insertionSort {α : Type} (r : α → α → Prop) [DecidableRel r] {p : α → Bool}
    (level : ∀ x y, p x = true → p y = true → r x y) (xs : List α) :
    (xs.insertionSort r).filter p = xs.filter p := by
  have ordered : (xs.filter p).Pairwise r :=
    pairwise_of_forall_mem_list fun x hx y hy =>
      level x y (mem_filter.mp hx).2 (mem_filter.mp hy).2
  have sub := (sublist_insertionSort ordered filter_sublist).filter p
  rw [filter_filter, filter_congr fun x _ => Bool.and_self (p x)] at sub
  exact (sub.eq_of_length ((perm_insertionSort r xs).filter p).length_eq.symm).symm

/-- **What is recorded after a field is.** -/
theorem find?_recordField (fields : Fields) (projection : StorageProjection)
    (value : ExecutionCondition) (q : StorageProjection) :
    (recordField fields projection value).find? (fun x => x.1 == q) =
      if projection = q then some (projection, value) else fields.find? fun x => x.1 == q := by
  unfold recordField
  split
  · next present => exact find?_replaceField projection value present q
  · next absent =>
    rw [← head?_filter, filter_insertionSort, filter_append, head?_append, head?_filter]
    · by_cases e : projection = q
      · subst e
        have none : fields.find? (fun x => x.1 == projection) = none := by
          rw [find?_eq_none]
          intro x hx h
          exact absent (any_eq_true.mpr ⟨x, hx, h⟩)
        simp [none]
      · simp [e]
    · intro x y hx hy
      rw [beq_iff_eq] at hx hy
      rw [hx, hy]

theorem componentBase_recordField (base : ExecutionCondition) (fields : Fields)
    {projection : StorageProjection} (h : projection ≠ .ownedTarget) (value : ExecutionCondition) :
    componentBase base (recordField fields projection value) = componentBase base fields := by
  unfold componentBase
  rw [find?_recordField, if_neg h]

/-! ## 4. The laws -/

/-- What a part of a product, a tuple or an array is recorded as. -/
def partField : ConstantProjectionKind → Option StorageProjection
  | .productField field => some (.productField field)
  | .tupleElement index => some (.tupleElement index)
  | .arrayElementOrdinal index => some (.elementFromStart index)
  | _ => none

variable {field : StorageProjection}

theorem partField_spec (part : partField kind = some field) :
    kind.isSupported = true ∧ kind ≠ .nullableValue ∧ field ≠ .ownedTarget ∧
      (∀ candidate : StorageProjection, candidate.answers kind = (candidate == field)) ∧
      ∀ c : ExecutionCondition, c.recordedAs kind = some field := by
  cases kind <;> cases part <;>
    exact ⟨rfl, by simp, by simp, fun _ => rfl, fun _ => rfl⟩

theorem partField_injective {a b : ConstantProjectionKind}
    (ha : partField a = some field) (hb : partField b = some field) : a = b := by
  cases a <;> cases ha <;> cases b <;> cases hb <;> rfl

section

variable (c : ExecutionCondition)
include c

theorem component_withField (owned : field ≠ .ownedTarget) (value : ExecutionCondition)
    {part : StorageProjection} (hk : partField kind = some part) :
    (c.withField field value).component kind = if field = part then value else c.component kind := by
  obtain ⟨supported, plain, _, answers, _⟩ := partField_spec hk
  have find : ∀ base fields, (constructed base (recordField fields field value)).component kind =
    if field = part then value
    else match fields.find? fun x => x.1 == part with
      | some x => x.2
      | none => (componentBase base fields).component kind := by
    intro base fields
    rw [component_constructed _ _ supported plain]
    simp only [answers, find?_recordField, componentBase_recordField base fields owned]
    by_cases e : field = part
    · simp only [e, if_true]
    · simp only [e, if_false]
  unfold withField
  split
  · next base fields =>
    rw [find, component_constructed _ _ supported plain]
    simp only [answers]
  · rw [find]
    rfl

/-- **A replaced part is read back**, with the rest of the path replaced in it. -/
theorem component_withComponent (part : (partField kind).isSome = true) (rest : List ConstantProjectionKind)
    (value : ExecutionCondition) : (c.withComponent (kind :: rest) value).component kind =
      (c.component kind).withComponent rest value := by
  obtain ⟨field, hk⟩ := Option.isSome_iff_exists.mp part
  obtain ⟨_, _, owned, _, recorded⟩ := partField_spec hk
  simp only [withComponent, recorded]
  split
  · next same => exact same.symm
  · rw [component_withField c owned _ hk, if_pos rfl]

theorem component_withComponent_other {other : ConstantProjectionKind}
    (part : (partField kind).isSome = true) (ne : other ≠ kind)
    (typed : (partField other).isSome = true ∨ other.isSupported = false)
    (rest : List ConstantProjectionKind) (value : ExecutionCondition) :
    (c.withComponent (kind :: rest) value).component other = c.component other := by
  rcases typed with hother | unsupported
  · obtain ⟨field, hk⟩ := Option.isSome_iff_exists.mp part
    obtain ⟨field', ho⟩ := Option.isSome_iff_exists.mp hother
    obtain ⟨_, _, owned, _, recorded⟩ := partField_spec hk
    simp only [withComponent, recorded]
    split
    · rfl
    · rw [component_withField c owned _ ho, if_neg]
      rintro rfl
      exact ne (partField_injective ho hk)
  · rw [component_unsupported _ unsupported, component_unsupported _ unsupported]

theorem components_append (path rest : List ConstantProjectionKind) :
    c.components (path ++ rest) = (c.components path).components rest :=
  foldl_append

theorem components_withComponent {path : List ConstantProjectionKind}
    (parts : ∀ kind ∈ path, (partField kind).isSome = true) (rest : List ConstantProjectionKind)
    (value : ExecutionCondition) : (c.withComponent (path ++ rest) value).components path =
      (c.components path).withComponent rest value := by
  induction path generalizing c with
  | nil => rfl
  | cons kind path ih =>
    have first := component_withComponent c (parts kind (.head _)) (path ++ rest) value
    show ((c.withComponent (kind :: (path ++ rest)) value).component kind).components path = _
    rw [first]
    exact ih _ fun k hk => parts k (.tail _ hk)

/-- Two paths part at some part of a value: one goes on with `kind`, the other with `other`. -/
theorem components_withComponent_apart {path : List ConstantProjectionKind} {other : ConstantProjectionKind}
    (parts : ∀ k ∈ path ++ [kind], (partField k).isSome = true) (ne : other ≠ kind)
    (typed : (partField other).isSome = true ∨ other.isSupported = false)
    (rest below : List ConstantProjectionKind) (value : ExecutionCondition) :
    (c.withComponent (path ++ kind :: rest) value).components (path ++ other :: below) =
      c.components (path ++ other :: below) := by
  rw [components_append, components_append,
    components_withComponent c (fun k hk => parts k (mem_append_left _ hk))]
  show (((c.components path).withComponent (kind :: rest) value).component other).components below = _
  rw [component_withComponent_other _ (parts kind (by simp)) ne typed]
  rfl

end

end ExecutionCondition

end Bray.Guarantee
