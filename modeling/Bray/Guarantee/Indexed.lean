/-
  File:      Bray/Guarantee/Indexed.lean
  Subject:   INDEXED SETS OF OBSERVATIONS AND PLACES (`Set` of condition/observations.rs, `overlaps_any` and
    `is_contained_by_any` of place.rs).

  A set is asked for a path above a path by the prefixes of it, and for one below by the first element from it
  on: in the order of the paths all that a path is a prefix of follows it at once (`any_rangeFrom`).

  * **`indexed_sets_agree`** -- the answers are those of a look at every element. The set of observations also
    holds what was inserted itself, which need not have a path: `overlaps_observation` alone says less
    (`overlaps_is_more`).
-/
import Bray.Guarantee.Observe

namespace Bray.Guarantee

open List

/-! ## 1. Ordered sets -/

section Ordered

variable {α : Type} [LinearOrder α]

/-- `range(bound..)`: what is not below the bound, in order. -/
def rangeFrom (set : Finset α) (bound : α) : List α := (set.filter (bound ≤ ·)).sort

/-- **What lies together is found at its first element**: a property that holds from the bound on, and between
the bound and each element with it. -/
theorem any_rangeFrom (set : Finset α) (bound : α) {p : α → Bool} (above : ∀ x, p x = true → bound ≤ x)
    (between : ∀ x y, bound ≤ x → x ≤ y → p y = true → p x = true) :
    (rangeFrom set bound).head?.any p = true ↔ ∃ x ∈ set, p x = true := by
  have mem : ∀ x, x ∈ rangeFrom set bound ↔ x ∈ set ∧ bound ≤ x := by simp [rangeFrom]
  have sorted : (rangeFrom set bound).Pairwise (· ≤ ·) := Finset.pairwise_sort _ _
  cases range : rangeFrom set bound with
  | nil =>
    refine ⟨nofun, fun ⟨x, hx, holds⟩ => ?_⟩
    have := (mem x).mpr ⟨hx, above x holds⟩
    rw [range] at this
    cases this
  | cons first rest =>
    rw [range] at sorted mem
    have ⟨inside, later⟩ := (mem first).mp (.head _)
    constructor
    · intro holds
      exact ⟨first, inside, holds⟩
    · intro ⟨x, hx, holds⟩
      rcases mem_cons.mp ((mem x).mpr ⟨hx, above x holds⟩) with rfl | behind
      · exact holds
      · exact between first x later ((pairwise_cons.mp sorted).1 x behind) holds

theorem any_take {β : Type} (path : List β) (p : List β → Prop) [DecidablePred p] :
    ((List.range (path.length + 1)).any fun length => decide (p (path.take length))) = true ↔
      ∃ above, above <+: path ∧ p above := by
  simp only [any_eq_true, mem_range, decide_eq_true_eq]
  constructor
  · intro ⟨length, _, holds⟩
    exact ⟨path.take length, take_prefix _ _, holds⟩
  · intro ⟨above, pre, holds⟩
    exact ⟨above.length, Nat.lt_succ_of_le pre.length_le, prefix_iff_eq_take.mp pre ▸ holds⟩

end Ordered

/-! ## 2. Places -/

namespace ExecutionPlace

def isContainedByAny (place : ExecutionPlace) (places : Finset ExecutionPlace) : Bool :=
  (List.range (place.projections.length + 1)).any fun length =>
    decide ((⟨place.root, place.projections.take length⟩ : ExecutionPlace) ∈ places)

def overlapsAny (place : ExecutionPlace) (places : Finset ExecutionPlace) : Bool :=
  (rangeFrom places place).head?.any place.contains || place.isContainedByAny places

variable {place : ExecutionPlace} {places : Finset ExecutionPlace}

theorem isContainedByAny_iff :
    place.isContainedByAny places = true ↔ ∃ other ∈ places, other.contains place = true := by
  rw [isContainedByAny, any_take _ fun above => (⟨place.root, above⟩ : ExecutionPlace) ∈ places]
  constructor
  · intro ⟨above, pre, mem⟩
    exact ⟨_, mem, contains_iff.mpr ⟨rfl, pre⟩⟩
  · intro ⟨other, mem, contains⟩
    obtain ⟨root, pre⟩ := contains_iff.mp contains
    exact ⟨other.projections, pre, root ▸ mem⟩

theorem overlapsAny_iff : place.overlapsAny places = true ↔ ∃ other ∈ places, place.overlaps other = true := by
  rw [overlapsAny, Bool.or_eq_true, isContainedByAny_iff,
    any_rangeFrom places place (fun _ => le_of_contains) fun _ _ => contains_of_between]
  simp only [overlaps, Bool.or_eq_true]
  rw [← exists_or]
  simp only [← and_or_left]

end ExecutionPlace

/-! ## 3. Observations -/

/-- `Set`: values that changed, and the paths that were observed of each root. -/
structure ObservationSet where
  values : Finset ExecutionCondition
  paths : ExecutionCondition → Option (Finset (List ConstantProjectionKind))

namespace ObservationSet

def empty : ObservationSet := ⟨∅, fun _ => none⟩

def insert (set : ObservationSet) (value : ExecutionCondition) : ObservationSet where
  values := Insert.insert value set.values
  paths :=
    match value.observationPath with
    | some (root, path) => Function.update set.paths root (some (Insert.insert path ((set.paths root).getD ∅)))
    | none => set.paths

def contains (set : ObservationSet) (value : ExecutionCondition) : Bool :=
  decide (value ∈ set.values) ||
    match value.observationPath with
    | none => false
    | some (root, path) => (set.paths root).any fun paths =>
      (List.range (path.length + 1)).any fun length => decide (path.take length ∈ paths)

def overlaps (set : ObservationSet) (value : ExecutionCondition) : Bool :=
  set.contains value ||
    match value.observationPath with
    | none => false
    | some (root, path) => (set.paths root).any fun paths => (rangeFrom paths path).head?.any path.isPrefixOf

/-- The set after insertions into the empty set. -/
def of (inserted : List ExecutionCondition) : ObservationSet := inserted.foldl insert empty

structure Holds (set : ObservationSet) (inserted : List ExecutionCondition) : Prop where
  values : ∀ value, value ∈ set.values ↔ value ∈ inserted
  paths : ∀ root path, path ∈ (set.paths root).getD ∅ ↔ ∃ value ∈ inserted, value.observationPath = some (root, path)

variable {set : ObservationSet} {inserted : List ExecutionCondition} {value root : ExecutionCondition}
  {path : List ConstantProjectionKind}

theorem Holds.insert (holds : set.Holds inserted) (value : ExecutionCondition) :
    (set.insert value).Holds (inserted ++ [value]) := by
  refine ⟨fun other => ?_, fun root path => ?_⟩
  · rw [ObservationSet.insert, Finset.mem_insert, holds.values, mem_append, mem_singleton, or_comm]
  · have before := holds.paths root path
    simp only [mem_append, mem_singleton, or_and_right, exists_or, exists_eq_left, ← before,
      ObservationSet.insert]
    cases at_ : value.observationPath with
    | none => simp
    | some found =>
      obtain ⟨root', path'⟩ := found
      by_cases same : root = root'
      · subst same
        simp [or_comm, eq_comm]
      · simp [Function.update_of_ne same, Ne.symm same]

theorem of_holds (inserted : List ExecutionCondition) : (of inserted).Holds inserted := by
  have run : ∀ (more before : List ExecutionCondition) (set : ObservationSet), set.Holds before →
      (more.foldl insert set).Holds (before ++ more) := by
    intro more
    induction more with
    | nil => exact fun before set holds => by simpa using holds
    | cons value more ih =>
      intro before set holds
      simpa using ih _ _ (holds.insert value)
  exact run inserted [] empty ⟨by simp [empty], by simp [empty]⟩

theorem any_paths (holds : set.Holds inserted) (root : ExecutionCondition)
    {p : Finset (List ConstantProjectionKind) → Bool}
    {q : List ConstantProjectionKind → Bool} (search : ∀ paths, p paths = true ↔ ∃ path ∈ paths, q path = true) :
    (set.paths root).any p = true ↔
      ∃ value ∈ inserted, ∃ path, value.observationPath = some (root, path) ∧ q path = true := by
  have found : (set.paths root).any p = true ↔ ∃ path ∈ (set.paths root).getD ∅, q path = true := by
    cases set.paths root <;> simp [search]
  simp only [found, holds.paths]
  constructor
  · intro ⟨path, ⟨value, mem, at_⟩, holds⟩
    exact ⟨value, mem, path, at_, holds⟩
  · intro ⟨value, mem, path, at_, holds⟩
    exact ⟨path, ⟨value, mem, at_⟩, holds⟩

end ObservationSet

/-- The path of a condition leads down to another. -/
def ExecutionCondition.coversObservation (condition other : ExecutionCondition) : Bool :=
  match condition.observationPath, other.observationPath with
  | some (root, path), some (otherRoot, otherPath) => decide (root = otherRoot) && path.isPrefixOf otherPath
  | _, _ => false

namespace ObservationSet

variable {set : ObservationSet} {inserted : List ExecutionCondition} {value root : ExecutionCondition}
  {path : List ConstantProjectionKind}

theorem coversObservation_iff {condition : ExecutionCondition} (at_ : value.observationPath = some (root, path)) :
    condition.coversObservation value = true ↔
      ∃ above, condition.observationPath = some (root, above) ∧ above <+: path := by
  rw [ExecutionCondition.coversObservation, at_]
  cases condition.observationPath with
  | none => simp
  | some found =>
    obtain ⟨root', above⟩ := found
    simp [Bool.and_eq_true, decide_eq_true_eq, isPrefixOf_iff_prefix, Option.some.injEq, Prod.mk.injEq,
      and_assoc, exists_and_left]

theorem contains_iff (holds : set.Holds inserted) : set.contains value = true ↔
    ∃ other ∈ inserted, (decide (other = value) || other.coversObservation value) = true := by
  simp only [contains, Bool.or_eq_true, decide_eq_true_eq, holds.values, and_or_left, exists_or, exists_eq_right]
  refine or_congr_right ?_
  cases at_ : value.observationPath with
  | none => simp [ExecutionCondition.coversObservation, at_]
  | some found =>
    obtain ⟨root, path⟩ := found
    have search := any_paths holds root (q := (·.isPrefixOf path)) fun paths =>
      (any_take path (· ∈ paths)).trans (by simp [and_comm])
    simp [search, coversObservation_iff at_, isPrefixOf_iff_prefix]

theorem overlaps_iff (holds : set.Holds inserted) : set.overlaps value = true ↔
    ∃ other ∈ inserted, (decide (other = value) || other.overlapsObservation value) = true := by
  rw [overlaps, Bool.or_eq_true, contains_iff holds]
  cases at_ : value.observationPath with
  | none => simp [ExecutionCondition.coversObservation, ExecutionCondition.overlapsObservation, at_]
  | some found =>
    obtain ⟨root, path⟩ := found
    have search := any_paths holds root fun paths =>
      any_rangeFrom paths path (p := path.isPrefixOf) (fun near below => ?_) fun near far low high below => ?_
    · simp only [search, Bool.or_eq_true, decide_eq_true_eq, coversObservation_iff at_,
        ExecutionCondition.overlapsObservation_iff at_, isPrefixOf_iff_prefix, ← exists_or, ← and_or_left, or_assoc]
      simp only [or_comm]
    · obtain ⟨more, rfl⟩ := isPrefixOf_iff_prefix.mp below
      exact Lib.le_append _ _
    · obtain ⟨more, rfl⟩ := isPrefixOf_iff_prefix.mp below
      exact isPrefixOf_iff_prefix.mpr (Lib.prefix_of_between low high)

/-- **THE INDEXED SETS AGREE WITH A LOOK AT EVERY ELEMENT**, after any insertions and for every query. -/
theorem indexed_sets_agree (inserted : List ExecutionCondition) (value : ExecutionCondition) (place : ExecutionPlace)
    (places : Finset ExecutionPlace) :
    (of inserted).contains value =
        inserted.any (fun other => decide (other = value) || other.coversObservation value) ∧
      (of inserted).overlaps value =
        inserted.any (fun other => decide (other = value) || other.overlapsObservation value) ∧
      place.overlapsAny places = decide (∃ other ∈ places, place.overlaps other = true) ∧
      place.isContainedByAny places = decide (∃ other ∈ places, other.contains place = true) := by
  refine ⟨?_, ?_, ?_, ?_⟩
  · rw [Bool.eq_iff_iff, contains_iff (of_holds inserted), any_eq_true]
  · rw [Bool.eq_iff_iff, overlaps_iff (of_holds inserted), any_eq_true]
  · rw [Bool.eq_iff_iff, ExecutionPlace.overlapsAny_iff, decide_eq_true_eq]
  · rw [Bool.eq_iff_iff, ExecutionPlace.isContainedByAny_iff, decide_eq_true_eq]

/-- A constant is found in a set that holds it, and overlaps nothing. -/
theorem overlaps_is_more : ¬ ∀ inserted value,
    (of inserted).overlaps value = inserted.any (·.overlapsObservation value) :=
  fun agree => absurd (agree [.boolean true] (.boolean true)) (by decide)

end ObservationSet

end Bray.Guarantee
