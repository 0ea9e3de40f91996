/-
  File:      Bray/Guarantee/Place.lean
  Subject:   THE SYMBOLIC STORE (`execution_guarantees/place.rs`, `ExecutionState::assign`): the
    current values of places, recorded at several granularities at once.

  A place reads the longest recorded prefix of its path and goes down from there. An assignment
  drops what was recorded below its place, updates the snapshots recorded above it and records
  the value. `get?_assign` says at once what is recorded afterwards; the laws of the store are
  read off from it and from the laws of components.
-/
import Bray.Guarantee.Component
import Bray.Lib.Prefix
import Bray.Lib.SortedMap

namespace Bray.Guarantee

open Bray.Lib List
open ExecutionCondition (partField components_withComponent components_withComponent_apart)

/-! ## 1. Places in order -/

/-- The position in the derived order: the variant, then what it holds. -/
def ExecutionInput.code : ExecutionInput → Nat ×ₗ Nat
  | .reference target => toLex (0, target)
  | .constant term => toLex (1, term)
  | .static selection => toLex (2, selection)
  | .argument ordinal => toLex (3, ordinal)
  | .storage identity => toLex (4, identity)

theorem ExecutionInput.code_injective : Function.Injective ExecutionInput.code := by
  intro a b h
  cases a <;> cases b <;> simp_all [code]

instance : LinearOrder ExecutionInput :=
  LinearOrder.lift' ExecutionInput.code ExecutionInput.code_injective

def ConstantProjectionKind.code : ConstantProjectionKind → List Nat
  | .tupleElement index => [0, index]
  | .arrayElement index => [1, index]
  | .arrayElementOrdinal index => [2, index]
  | .arraySlice lower upper => 3 :: bound lower ++ bound upper
  | .productField field => [4, field]
  | .unionPayloadField field => [5, field]
  | .nullableValue => [6]
where
  bound : Option Payload → List Nat
    | none => [0]
    | some term => [1, term]

theorem ConstantProjectionKind.code_injective : Function.Injective ConstantProjectionKind.code := by
  intro a b h
  cases a <;> cases b <;> simp_all [code]
  next lower upper lower' upper' =>
    cases lower <;> cases lower' <;> cases upper <;> cases upper' <;> simp_all [code.bound]

instance : LinearOrder ConstantProjectionKind :=
  LinearOrder.lift' ConstantProjectionKind.code ConstantProjectionKind.code_injective

namespace ExecutionPlace

def key (place : ExecutionPlace) : ExecutionInput ×ₗ List ConstantProjectionKind :=
  toLex (place.root, place.projections)

theorem key_injective : Function.Injective key := by
  rintro ⟨root, projections⟩ ⟨root', projections'⟩ h
  obtain ⟨rfl, rfl⟩ : root = root' ∧ projections = projections' := by
    simpa [key] using h
  rfl

instance : LinearOrder ExecutionPlace := LinearOrder.lift' key key_injective

instance : Std.LawfulEqCmp (compare : ExecutionPlace → ExecutionPlace → Ordering) where
  eq_of_compare := compare_eq_iff_eq.mp

/-- `contains`: the other place is this one or a component of it. -/
def contains (place other : ExecutionPlace) : Bool :=
  decide (place.root = other.root) && place.projections.isPrefixOf other.projections

variable {place other : ExecutionPlace}

theorem contains_iff :
    place.contains other = true ↔ place.root = other.root ∧ place.projections <+: other.projections := by
  simp [contains]

/-- The places under a place lie together. -/
theorem contains_of_between {x y : ExecutionPlace} (low : place ≤ x) (high : x ≤ y)
    (h : place.contains y = true) : place.contains x = true := by
  obtain ⟨root, path⟩ := contains_iff.mp h
  have low : place.key ≤ x.key := low
  have high : x.key ≤ y.key := high
  rw [key, key, Prod.Lex.toLex_le_toLex] at low high
  obtain ⟨same, low⟩ : place.root = x.root ∧ place.projections ≤ x.projections := by
    rcases low with lt | low
    · rcases high with lt' | ⟨same, _⟩
      · exact absurd (root ▸ lt') lt.asymm
      · exact absurd (root.trans same.symm) (ne_of_lt lt)
    · exact low
  obtain ⟨more, more_eq⟩ := path
  rcases high with lt | ⟨_, high⟩
  · exact absurd (same.symm.trans root) (ne_of_lt lt)
  · exact contains_iff.mpr ⟨same, prefix_of_between low (more_eq ▸ high)⟩

theorem le_of_contains (h : place.contains other = true) : place ≤ other := by
  obtain ⟨root, more, path⟩ := contains_iff.mp h
  show place.key ≤ other.key
  rw [key, key, Prod.Lex.toLex_le_toLex]
  exact .inr ⟨root, path ▸ le_append _ _⟩

@[simp] theorem contains_self (place : ExecutionPlace) : place.contains place = true :=
  contains_iff.mpr ⟨rfl, prefix_rfl⟩

theorem contains_antisymm (h : place.contains other = true) (h' : other.contains place = true) : place = other := by
  obtain ⟨root, path⟩ := contains_iff.mp h
  obtain ⟨_, path'⟩ := contains_iff.mp h'
  obtain ⟨root₁, projections⟩ := place
  obtain ⟨root₂, projections'⟩ := other
  obtain rfl : root₁ = root₂ := root
  obtain rfl : projections = projections' := path.eq_of_length (path.length_le.antisymm path'.length_le)
  rfl

end ExecutionPlace

/-- `overlaps` -/
def ExecutionPlace.overlaps (place other : ExecutionPlace) : Bool :=
  place.contains other || other.contains place

/-- Where the paths part, the other goes on into a part of the same product, tuple or array: what
  it parts at has one type. -/
def ExecutionPlace.PartAlike (place other : ExecutionPlace) : Prop :=
  ∀ common kind kind' rest below, place.projections = common ++ kind :: rest →
    other.projections = common ++ kind' :: below → (partField kind').isSome = true ∨ kind'.isSupported = false

/-! ## 2. Observations -/

/-- The values recorded of places. -/
abbrev Observations := SortedMap (compare : ExecutionPlace → ExecutionPlace → Ordering) ExecutionCondition

namespace ExecutionPlace

/-- The place of the first projections. -/
def ancestor (place : ExecutionPlace) (length : Nat) : ExecutionPlace :=
  ⟨place.root, place.projections.take length⟩

theorem ancestor_contains (place : ExecutionPlace) (length : Nat) : (place.ancestor length).contains place = true :=
  contains_iff.mpr ⟨rfl, take_prefix _ _⟩

theorem eq_ancestor {place other : ExecutionPlace} (h : other.contains place = true) :
    other = place.ancestor other.projections.length := by
  obtain ⟨root, path⟩ := contains_iff.mp h
  rw [ancestor, ← prefix_iff_eq_take.mp path, ← root]

/-- **What a place reads** (`value_in`): the components of the longest recorded prefix. -/
def valueIn (place : ExecutionPlace) (values : Observations) : Option ExecutionCondition :=
  (List.range (place.projections.length + 1)).reverse.findSome? fun length =>
    (values.get? (place.ancestor length)).map fun value =>
      value.components (place.projections.drop length)

end ExecutionPlace

/-- `update_parent_observations` -/
def updateParentObservations (observations : Observations) (place : ExecutionPlace)
  (value : ExecutionCondition) : Observations :=
  (List.range place.projections.length).foldl
    (fun observations length =>
      observations.modify (place.ancestor length) fun snapshot =>
        snapshot.withComponent (place.projections.drop length) value)
    observations

/-- The state of the analysis at a point: here its current values. -/
structure ExecutionState where
  current : Observations

namespace ExecutionState

/-- What an assignment drops: the records from `place` on, as long as they are under it. -/
def replaced (state : ExecutionState) (place : ExecutionPlace) : List ExecutionPlace :=
  ((state.current.range (.included place) .unbounded).takeWhile fun observed =>
    place.contains observed.1).map Prod.fst

/-- `ExecutionState::assign` -/
def assign (state : ExecutionState) (place : ExecutionPlace) (value : ExecutionCondition) :
  ExecutionState :=
  let kept := (state.replaced place).foldl SortedMap.erase state.current
  { state with current := (updateParentObservations kept place value).insert place value }

theorem mem_replaced {state : ExecutionState} {place other : ExecutionPlace} : other ∈ state.replaced place ↔
      place.contains other = true ∧ ∃ value, (other, value) ∈ state.current.entries := by
  have together : (state.current.range (.included place) .unbounded).Pairwise fun x y =>
    place.contains y.1 = true → place.contains x.1 = true := by
    refine (state.current.sorted.filter _).imp_of_mem ?_
    intro x y hx _ lt under
    have low := (mem_filter.mp hx).2
    simp only [Bound.above, Bound.below, Bool.and_true, bne_iff_ne, ne_eq, compare_lt_iff_lt, not_lt] at low
    exact ExecutionPlace.contains_of_between low (compare_lt_iff_lt.mp lt).le under
  unfold replaced
  rw [takeWhile_eq_filter together]
  simp only [SortedMap.range, filter_filter, mem_map, mem_filter, Bound.above,
    Bound.below, Bool.and_true, Bool.and_eq_true, bne_iff_ne, ne_eq, compare_lt_iff_lt, not_lt]
  constructor
  · rintro ⟨⟨_, value⟩, ⟨mem, under, _⟩, rfl⟩
    exact ⟨under, value, mem⟩
  · rintro ⟨under, value, mem⟩
    exact ⟨(other, value), ⟨mem, under, ExecutionPlace.le_of_contains under⟩, rfl⟩

theorem get?_updateParentObservations (observations : Observations) (place other : ExecutionPlace)
    (value : ExecutionCondition) : (updateParentObservations observations place value).get? other =
      if other.contains place && decide (other ≠ place) then (observations.get? other).map fun snapshot =>
        snapshot.withComponent (place.projections.drop other.projections.length) value
      else observations.get? other := by
  -- after the snapshots at the first `n` lengths
  have loop : ∀ n ≤ place.projections.length, ((List.range n).foldl (fun observations length =>
        observations.modify (place.ancestor length) fun snapshot =>
          snapshot.withComponent (place.projections.drop length) value) observations).get? other =
      if other.contains place && decide (other.projections.length < n) then
        (observations.get? other).map fun snapshot =>
          snapshot.withComponent (place.projections.drop other.projections.length) value
      else observations.get? other := by
    intro n hn
    induction n with
    | zero => simp
    | succ n ih =>
      replace ih := ih (Nat.le_of_succ_le hn)
      rw [range_succ, foldl_append, foldl_cons, foldl_nil, SortedMap.get?_modify]
      by_cases here : other = place.ancestor n
      · have length : other.projections.length = n := by
          rw [here]
          exact length_take_of_le (Nat.le_of_succ_le hn)
        have under : other.contains place = true := here ▸ place.ancestor_contains n
        rw [if_pos here, ← here, ih]
        simp [under, length]
      · rw [if_neg here, ih]
        by_cases under : other.contains place = true
        · have ne : other.projections.length ≠ n := by
            rintro rfl
            exact here (ExecutionPlace.eq_ancestor under)
          have same : other.projections.length < n + 1 ↔ other.projections.length < n := by omega
          simp only [same]
        · simp [under]
  rw [updateParentObservations, loop _ le_rfl]
  by_cases under : other.contains place = true
  · have proper : other.projections.length < place.projections.length ↔ other ≠ place := by
      have le := (ExecutionPlace.contains_iff.mp under).2.length_le
      constructor
      · rintro lt rfl
        exact lt_irrefl _ lt
      · intro ne
        refine lt_of_le_of_ne le fun e => ne ?_
        rw [ExecutionPlace.eq_ancestor under, e, ExecutionPlace.ancestor, take_length]
    simp only [proper]
  · simp [under]

/-- **What is recorded after an assignment.** -/
theorem get?_assign (state : ExecutionState) (place other : ExecutionPlace) (value : ExecutionCondition) :
    (state.assign place value).current.get? other = if other = place then some value
      else if place.contains other then none else if other.contains place then
        (state.current.get? other).map fun snapshot =>
          snapshot.withComponent (place.projections.drop other.projections.length) value
      else state.current.get? other := by
  have kept : ((state.replaced place).foldl SortedMap.erase state.current).get? other =
    if place.contains other then none else state.current.get? other := by
    rw [SortedMap.get?_foldl_erase]
    by_cases under : place.contains other = true
    · split
      · rfl
      · next absent =>
        rw [Option.eq_none_iff_forall_ne_some]
        exact fun v found => absent (mem_replaced.mpr ⟨under, v, SortedMap.get?_eq_some.mp found⟩)
    · rw [if_neg under, if_neg fun mem => under (mem_replaced.mp mem).1]
  show (SortedMap.insert _ place value).get? other = _
  rw [SortedMap.get?_insert, get?_updateParentObservations, kept]
  by_cases here : other = place
  · rw [if_pos here, if_pos here]
  · by_cases under : place.contains other = true
    · simp [under]
    · simp [under, here]

/-! ## 3. The laws of the store -/

theorem findSome?_map {α β γ : Type} (f : α → Option β) (g : β → γ) (xs : List α) :
    xs.findSome? (fun x => (f x).map g) = (xs.findSome? f).map g := by
  induction xs with
  | nil => rfl
  | cons x xs ih =>
    rw [findSome?_cons, findSome?_cons]
    cases f x with
    | none => exact ih
    | some y => rfl

theorem findSome?_congr {α β : Type} {f g : α → Option β} {xs : List α}
    (h : ∀ x ∈ xs, f x = g x) : xs.findSome? f = xs.findSome? g := by
  induction xs with
  | nil => rfl
  | cons x xs ih =>
    rw [findSome?_cons, findSome?_cons, h x mem_cons_self,
      ih fun y hy => h y (.tail _ hy)]

/-- A place reads what is recorded of its prefixes. -/
theorem valueIn_congr {place : ExecutionPlace} {values values' : Observations}
    (g : ExecutionCondition → ExecutionCondition) (h : ∀ n ≤ place.projections.length,
      ((values'.get? (place.ancestor n)).map fun v => v.components (place.projections.drop n)) =
        ((values.get? (place.ancestor n)).map fun v => v.components (place.projections.drop n)).map g) :
    place.valueIn values' = (place.valueIn values).map g := by
  unfold ExecutionPlace.valueIn
  rw [← findSome?_map]
  refine findSome?_congr fun n hn => h n ?_
  rw [mem_reverse, mem_range] at hn
  omega

/-- The longest recorded prefix is what is read. -/
theorem valueIn_of_longest {place : ExecutionPlace} {values : Observations} {length : Nat}
    {value : ExecutionCondition} (bound : length ≤ place.projections.length)
    (recorded : values.get? (place.ancestor length) = some value)
    (longest : ∀ n, length < n → n ≤ place.projections.length → values.get? (place.ancestor n) = none) :
    place.valueIn values = some (value.components (place.projections.drop length)) := by
  obtain ⟨more, eq⟩ := Nat.exists_eq_add_of_le bound
  unfold ExecutionPlace.valueIn
  rw [eq, show length + more + 1 = length + 1 + more by omega, range_add, reverse_append,
    findSome?_append, range_succ, reverse_append, findSome?_eq_none_iff.mpr]
  · simp [recorded]
  · intro n hn
    obtain ⟨k, hk, rfl⟩ := mem_map.mp (mem_reverse.mp hn)
    rw [mem_range] at hk
    rw [longest _ (by omega) (by omega), Option.map_none]

section Assigned

variable (state : ExecutionState) {place other : ExecutionPlace} (value : ExecutionCondition)

/-- The assigned place and all below it read the value and its components. -/
theorem valueIn_below (below : place.contains other = true) : other.valueIn (state.assign place value).current =
      some (value.components (other.projections.drop place.projections.length)) := by
  have bound := (ExecutionPlace.contains_iff.mp below).2.length_le
  refine valueIn_of_longest bound ?_ fun n longer hn => ?_
  · rw [← ExecutionPlace.eq_ancestor below, get?_assign, if_pos rfl]
  · have length : (other.ancestor n).projections.length = n := length_take_of_le hn
    rw [get?_assign, if_neg, if_pos]
    · refine ExecutionPlace.contains_iff.mpr ⟨(ExecutionPlace.contains_iff.mp below).1, ?_⟩
      rw [prefix_iff_eq_take.mp (ExecutionPlace.contains_iff.mp below).2]
      exact take_prefix_take_left longer.le
    · rintro rfl
      omega

theorem valueIn_enclosing (built : ∀ kind ∈ place.projections, (partField kind).isSome = true)
    (above : other.contains place = true) (ne : other ≠ place) :
    other.valueIn (state.assign place value).current = (other.valueIn state.current).map fun old =>
      old.withComponent (place.projections.drop other.projections.length) value := by
  obtain ⟨root, more, path⟩ := ExecutionPlace.contains_iff.mp above
  refine valueIn_congr _ fun n hn => ?_
  have length : (other.ancestor n).projections.length = n := length_take_of_le hn
  have above_ : (other.ancestor n).contains place = true := by
    refine ExecutionPlace.contains_iff.mpr ⟨root, ?_⟩
    rw [← path]
    exact ( take_prefix _ _).trans (prefix_append _ _)
  have proper : other.ancestor n ≠ place := by
    rintro rfl
    refine ne (ExecutionPlace.contains_antisymm above (other.ancestor_contains n))
  have apart : ¬ place.contains (other.ancestor n) = true := fun under =>
    proper (ExecutionPlace.contains_antisymm above_ under)
  rw [get?_assign, if_neg proper, if_neg apart, if_pos above_, Option.map_map, Option.map_map, length]
  congr 1
  funext snapshot
  have split : place.projections.drop n = other.projections.drop n ++ more := by
    rw [← path, drop_append_of_le_length hn]
  have rest : place.projections.drop other.projections.length = more := by
    rw [← path, drop_left]
  simp only [Function.comp, split, rest]
  refine components_withComponent snapshot (fun kind hk => built kind ?_) more value
  rw [← path]
  exact mem_append_left _ (mem_of_mem_drop hk)

/-- A place that does not overlap reads what it read. -/
theorem valueIn_apart (built : ∀ kind ∈ place.projections, (partField kind).isSome = true)
    (apart : place.overlaps other = false) (alike : place.PartAlike other) :
    other.valueIn (state.assign place value).current = other.valueIn state.current := by
  obtain ⟨notBelow, notAbove⟩ := Bool.or_eq_false_iff.mp apart
  have same : ∀ n ≤ other.projections.length, place.contains (other.ancestor n) = false := by
    intro n hn
    rw [Bool.eq_false_iff]
    intro under
    refine Bool.eq_false_iff.mp notBelow (ExecutionPlace.contains_iff.mpr ⟨?_, ?_⟩)
    · exact (ExecutionPlace.contains_iff.mp under).1
    · exact (ExecutionPlace.contains_iff.mp under).2.trans ( take_prefix _ _)
  refine (valueIn_congr id fun n hn => ?_).trans Option.map_id_apply
  have distinct : other.ancestor n ≠ place := by
    intro e
    have := same n hn
    rw [e, ExecutionPlace.contains_self] at this
    cases this
  rw [get?_assign, if_neg distinct, if_neg (Bool.eq_false_iff.mp (same n hn)), Option.map_id]
  split
  · next above =>
    have root : other.root = place.root := (ExecutionPlace.contains_iff.mp above).1
    obtain ⟨common, a, b, rest, below, hp, ho, ne⟩ := exists_parting
      (fun p => Bool.eq_false_iff.mp notBelow (ExecutionPlace.contains_iff.mpr ⟨root.symm, p⟩))
      (fun p => Bool.eq_false_iff.mp notAbove (ExecutionPlace.contains_iff.mpr ⟨root, p⟩))
    have short : n ≤ common.length := by
      by_contra long
      obtain ⟨k, rfl⟩ := Nat.exists_eq_add_of_lt (not_le.mp long)
      have path := (ExecutionPlace.contains_iff.mp above).2
      rw [ExecutionPlace.ancestor, hp, ho, Nat.add_assoc, take_length_add_append,
        prefix_append_right_inj] at path
      exact ne (cons_prefix_cons.mp path).1.symm
    have length : (other.ancestor n).projections.length = n := length_take_of_le hn
    rw [Option.map_map, length, hp, ho, drop_append_of_le_length short, drop_append_of_le_length short]
    congr 1
    funext snapshot
    refine components_withComponent_apart snapshot (fun k hk => built k ?_) ne.symm
      (alike common a b rest below hp ho) rest below value
    rw [hp]
    rcases mem_append.mp hk with hk | hk
    · exact mem_append_left _ (mem_of_mem_drop hk)
    · rw [mem_singleton.mp hk]
      exact mem_append_right _ (.head _)
  · rfl

end Assigned

/-- **THE LAWS OF THE STORE**: after a value is assigned to a place built from product, tuple and
  array projections, the place reads the value, a place below it reads the component of the
  value, an enclosing place what it read with the component replaced, and a place that does not
  overlap it what it read. -/
theorem assign_laws (state : ExecutionState) (place : ExecutionPlace) (value : ExecutionCondition)
    (built : ∀ kind ∈ place.projections, (partField kind).isSome = true) :
    place.valueIn (state.assign place value).current = some value ∧ (∀ other, place.contains other = true →
      other.valueIn (state.assign place value).current =
        some (value.components (other.projections.drop place.projections.length))) ∧
    (∀ other, other.contains place = true → other ≠ place →
      other.valueIn (state.assign place value).current = (other.valueIn state.current).map fun old =>
        old.withComponent (place.projections.drop other.projections.length) value) ∧
    (∀ other, place.overlaps other = false → place.PartAlike other →
      other.valueIn (state.assign place value).current = other.valueIn state.current) := by
  refine ⟨?_, fun other => valueIn_below state value, fun other => valueIn_enclosing state value built,
    fun other => valueIn_apart state value built⟩
  have self := valueIn_below state value place.contains_self
  rwa [drop_length] at self

/-- Two fields of an argument, and the argument recorded as it was on entry. -/
theorem assign_laws_fields :
  let argument : ExecutionPlace := ⟨.argument 0, []⟩
  let left : ExecutionPlace := argument.component (.productField 0)
  let right : ExecutionPlace := argument.component (.productField 1)
  let state : ExecutionState :=
    ⟨(SortedMap.empty _ _).insert argument (.input argument)⟩
  left.valueIn (state.assign left (.boolean true)).current = some (.boolean true) ∧
    argument.valueIn (state.assign left (.boolean true)).current =
      some (.constructed (.input argument) [(.productField 0, .boolean true)]) ∧
    right.valueIn (state.assign left (.boolean true)).current = some (.input right) := by
  intro argument left right state
  have laws := assign_laws state left (.boolean true) (by decide)
  refine ⟨laws.1, (laws.2.2.1 argument (by decide) (by decide)).trans (by decide), ?_⟩
  refine (laws.2.2.2 right (by decide) ?_).trans (by decide)
  intro common kind kind' rest below hp ho
  cases common with
  | nil =>
    obtain rfl : ConstantProjectionKind.productField 1 = kind' := (List.cons.inj ho).1
    exact .inl rfl
  | cons _ common => exact absurd (congrArg List.length hp) (by simp [left, argument, ExecutionPlace.component])

end ExecutionState

end Bray.Guarantee
