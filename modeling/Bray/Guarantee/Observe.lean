/-
  File:      Bray/Guarantee/Observe.lean
  Subject:   WHAT A CONDITION OBSERVES (`execution_guarantees/condition/observations.rs`): the inputs of
    a condition, its observations, and whether it observes a value that changes.

  The search for inputs goes down everywhere; the search for observations stops at a projection,
  which is to observe its component only, and reads the path of it. A path is read through
  projections and snapshots down to an input, an expression or other storage, and through nothing
  else: of a projection of a call, of an operation or of a borrow there is no path, and its inputs
  are not observed.

  * **`observes_inputs_iff`** -- a condition observes all that overlaps its inputs exactly when
    every input under a projection has an observation at it or above it.
-/
import Bray.Guarantee.Place

namespace Bray.Guarantee

open List

namespace ExecutionCondition

/-! ## 1. The two searches -/

mutual
/-- `inputs`: the input places of the condition. -/
def inputs : ExecutionCondition → List ExecutionPlace
  | .input place => [place]
  | .operation _ operands | .predicate _ _ operands | .call _ _ _ operands => inputsAll operands
  | .tagged _ value | .variantTest _ value | .projection _ value | .trusted value
  | .borrowed value | .present value | .entry value _ => value.inputs
  | .constructed base fields => base.inputs ++ inputsField fields
  | _ => []
termination_by structural c => c
def inputsAll : List ExecutionCondition → List ExecutionPlace
  | [] => []
  | x :: xs => x.inputs ++ inputsAll xs
termination_by structural c => c
def inputsField : List (StorageProjection × ExecutionCondition) → List ExecutionPlace
  | [] => []
  | (_, x) :: xs => x.inputs ++ inputsField xs
termination_by structural c => c
end

mutual
/-- `observations`: the conditions that are looked at. Captured guards and what is under a projection
  are not. -/
def observations : ExecutionCondition → List ExecutionCondition
  | .operation operator operands => .operation operator operands :: observationsAll operands
  | .predicate name substitution operands =>
    .predicate name substitution operands :: observationsAll operands
  | .call callable implementation witnesses operands =>
    .call callable implementation witnesses operands :: observationsAll operands
  | .tagged tag value => .tagged tag value :: value.observations
  | .variantTest tag value => .variantTest tag value :: value.observations
  | .trusted value => .trusted value :: value.observations
  | .borrowed value => .borrowed value :: value.observations
  | .present value => .present value :: value.observations
  | .entry value false => .entry value false :: value.observations
  | .constructed base fields =>
    .constructed base fields :: (base.observations ++ observationsField fields)
  | condition => [condition]
termination_by structural c => c
def observationsAll : List ExecutionCondition → List ExecutionCondition
  | [] => []
  | x :: xs => x.observations ++ observationsAll xs
termination_by structural c => c
def observationsField : List (StorageProjection × ExecutionCondition) → List ExecutionCondition
  | [] => []
  | (_, x) :: xs => x.observations ++ observationsField xs
termination_by structural c => c
end

mutual
/-- A guard of it was captured at entry. -/
def hasCaptured : ExecutionCondition → Bool
  | .entry value captured => captured || value.hasCaptured
  | .operation _ operands | .predicate _ _ operands | .call _ _ _ operands =>
    hasCapturedAny operands
  | .tagged _ value | .variantTest _ value | .projection _ value | .trusted value
  | .borrowed value | .present value => value.hasCaptured
  | .constructed base fields => base.hasCaptured || hasCapturedField fields
  | _ => false
termination_by structural c => c
def hasCapturedAny : List ExecutionCondition → Bool
  | [] => false
  | x :: xs => x.hasCaptured || hasCapturedAny xs
termination_by structural c => c
def hasCapturedField : List (StorageProjection × ExecutionCondition) → Bool
  | [] => false
  | (_, x) :: xs => x.hasCaptured || hasCapturedField xs
termination_by structural c => c
end

/-- The storage a condition is read from, and the path from there. -/
def observationPath : ExecutionCondition → Option (ExecutionCondition × List ConstantProjectionKind)
  | .projection component parent => parent.observationPath.map fun found =>
    (found.1, found.2 ++ [component])
  | .input place => some (.input ⟨place.root, []⟩, place.projections)
  | .constructed base _ => if base = .unknown then none else base.observationPath
  | .expression occurrence => some (.expression occurrence, [])
  | .scopedCapability occurrence => some (.scopedCapability occurrence, [])
  | .postState mutation place => some (.postState mutation place, [])
  | .joined unit block place => some (.joined unit block place, [])
  | .result => some (.result, [])
  | _ => none

def overlapsObservation (condition other : ExecutionCondition) : Bool :=
  match condition.observationPath, other.observationPath with
  | some (root, path), some (otherRoot, otherPath) =>
    decide (root = otherRoot) && (otherPath.isPrefixOf path || path.isPrefixOf otherPath)
  | _, _ => false

/-- **`observes`** -/
def observes (condition value : ExecutionCondition) : Bool :=
  condition.observations.any fun observed =>
    decide (observed = value) || observed.overlapsObservation value

/-! ## 2. What is hidden -/

mutual
/-- The inputs under the projections among the observations. -/
def hiddenInputs : ExecutionCondition → List ExecutionPlace
  | .projection _ value => value.inputs
  | .operation _ operands | .predicate _ _ operands | .call _ _ _ operands => hiddenAll operands
  | .tagged _ value | .variantTest _ value | .trusted value | .borrowed value | .present value
  | .entry value false => value.hiddenInputs
  | .constructed base fields => base.hiddenInputs ++ hiddenField fields
  | _ => []
termination_by structural c => c
def hiddenAll : List ExecutionCondition → List ExecutionPlace
  | [] => []
  | x :: xs => x.hiddenInputs ++ hiddenAll xs
termination_by structural c => c
def hiddenField : List (StorageProjection × ExecutionCondition) → List ExecutionPlace
  | [] => []
  | (_, x) :: xs => x.hiddenInputs ++ hiddenField xs
termination_by structural c => c
end

/-! Without captured guards an input is observed itself or hidden under a projection. -/

mutual
theorem mem_inputs {place : ExecutionPlace} : ∀ {c : ExecutionCondition}, c.hasCaptured = false →
    (place ∈ c.inputs ↔ .input place ∈ c.observations ∨ place ∈ c.hiddenInputs)
  | .boolean _, _ | .variant _, _ | .literal _, _ | .result, _ | .expression _, _
  | .scopedCapability _, _ | .postState _ _, _ | .joined _ _ _, _ | .unknown, _ => by
    simp [inputs, observations, hiddenInputs]
  | .input _, _ => by simp [inputs, observations, hiddenInputs]
  | .projection _ _, _ => by simp [inputs, observations, hiddenInputs]
  | .tagged _ value, h | .variantTest _ value, h | .trusted value, h | .borrowed value, h
  | .present value, h => by
    simpa [inputs, observations, hiddenInputs] using @mem_inputs place value h
  | .entry value false, h => by
    simpa [inputs, observations, hiddenInputs] using
      @mem_inputs place value (by simpa [hasCaptured] using h)
  | .entry value true, h => by simp [hasCaptured] at h
  | .operation _ operands, h | .predicate _ _ operands, h | .call _ _ _ operands, h => by
    simpa [inputs, observations, hiddenInputs] using @mem_inputsAll place operands h
  | .constructed base fields, h => by
    obtain ⟨hb, hf⟩ : base.hasCaptured = false ∧ hasCapturedField fields = false := by
      simpa [hasCaptured] using h
    have inBase := @mem_inputs place _ hb
    have inFields := @mem_inputsField place _ hf
    simp only [inputs, observations, hiddenInputs, mem_append, mem_cons, reduceCtorEq, false_or]
    tauto
theorem mem_inputsAll {place : ExecutionPlace} : ∀ {xs : List ExecutionCondition}, hasCapturedAny xs = false →
    (place ∈ inputsAll xs ↔ .input place ∈ observationsAll xs ∨ place ∈ hiddenAll xs)
  | [], _ => by simp [inputsAll, observationsAll, hiddenAll]
  | x :: xs, h => by
    obtain ⟨hx, hxs⟩ : x.hasCaptured = false ∧ hasCapturedAny xs = false := by
      simpa [hasCapturedAny] using h
    have inHead := @mem_inputs place _ hx
    have inTail := @mem_inputsAll place _ hxs
    simp only [inputsAll, observationsAll, hiddenAll, mem_append]
    tauto
theorem mem_inputsField {place : ExecutionPlace} :
    ∀ {fields : List (StorageProjection × ExecutionCondition)}, hasCapturedField fields = false →
    (place ∈ inputsField fields ↔ .input place ∈ observationsField fields ∨ place ∈ hiddenField fields)
  | [], _ => by simp [inputsField, observationsField, hiddenField]
  | (_, x) :: fields, h => by
    obtain ⟨hx, hxs⟩ : x.hasCaptured = false ∧ hasCapturedField fields = false := by
      simpa [hasCapturedField] using h
    have inHead := @mem_inputs place _ hx
    have inTail := @mem_inputsField place _ hxs
    simp only [inputsField, observationsField, hiddenField, mem_append]
    tauto
end

/-! ## 3. Observation is complete exactly when nothing is hidden -/

variable {c : ExecutionCondition}

theorem overlapsObservation_iff {value root : ExecutionCondition} {path : List ConstantProjectionKind}
    (at_ : value.observationPath = some (root, path)) : c.overlapsObservation value = true ↔
      ∃ near, c.observationPath = some (root, near) ∧ (path <+: near ∨ near <+: path) := by
  rw [overlapsObservation, at_]
  cases c.observationPath with
  | none => simp
  | some found =>
    obtain ⟨root', near⟩ := found
    simp [Bool.and_eq_true, decide_eq_true_eq, Bool.or_eq_true, isPrefixOf_iff_prefix, Option.some.injEq,
      Prod.mk.injEq, and_assoc, exists_and_left]

theorem overlapsObservation_input {place : ExecutionPlace} : c.overlapsObservation (.input place) = true ↔ ∃ path,
      c.observationPath = some (.input ⟨place.root, []⟩, path) ∧
        (place.projections <+: path ∨ path <+: place.projections) :=
  overlapsObservation_iff rfl

theorem observes_iff {value : ExecutionCondition} : c.observes value = true ↔
    ∃ o ∈ c.observations, o = value ∨ o.overlapsObservation value = true := by
  simp [observes]

theorem overlaps_iff {place other : ExecutionPlace} : place.overlaps other = true ↔ place.root = other.root ∧
      (place.projections <+: other.projections ∨ other.projections <+: place.projections) := by
  rw [ExecutionPlace.overlaps, Bool.or_eq_true, ExecutionPlace.contains_iff, ExecutionPlace.contains_iff]
  constructor
  · intro h
    rcases h with ⟨root, path⟩ | ⟨root, path⟩
    · exact ⟨root, .inl path⟩
    · exact ⟨root.symm, .inr path⟩
  · intro ⟨root, h⟩
    exact h.imp (fun path => ⟨root, path⟩) fun path => ⟨root.symm, path⟩

instance : Infinite ConstantProjectionKind :=
  Infinite.of_injective ConstantProjectionKind.arrayElementOrdinal fun _ _ h =>
    ConstantProjectionKind.arrayElementOrdinal.inj h

/-- There is a component that no observation reads. -/
theorem exists_unread (c : ExecutionCondition) : ∃ kind, ∀ o ∈ c.observations, ∀ root path,
    o.observationPath = some (root, path) → kind ∉ path := by
  obtain ⟨kind, unread⟩ := Infinite.exists_notMem_finset (c.observations.flatMap fun o =>
    (o.observationPath.map Prod.snd).getD []).toFinset
  refine ⟨kind, fun o ho root path found mem => unread ?_⟩
  rw [mem_toFinset, mem_flatMap]
  exact ⟨o, ho, by simpa [found] using mem⟩

/-- An observation at a place or above it. -/
def Covers (c : ExecutionCondition) (place : ExecutionPlace) : Prop :=
  ∃ o ∈ c.observations, ∃ path, o.observationPath = some (.input ⟨place.root, []⟩, path) ∧
    path <+: place.projections

/-- What has an observation at it or above it is observed with all that overlaps it. -/
theorem Covers.observes {place other : ExecutionPlace}
    (h : c.Covers place) (near : place.overlaps other = true) : c.observes (.input other) = true := by
  obtain ⟨o, ho, path, found, above⟩ := h
  obtain ⟨root, near⟩ := overlaps_iff.mp near
  refine observes_iff.mpr ⟨o, ho, .inr (overlapsObservation_input.mpr ⟨path, root ▸ found, ?_⟩)⟩
  rcases near with below | within
  · exact .inr (above.trans below)
  · exact prefix_or_prefix_of_prefix within above

/-- What is observed with all its components has an observation at it or above it: one component of
  it is read nowhere. -/
theorem covers_of_observes {place : ExecutionPlace}
    (h : ∀ other, place.overlaps other = true → c.observes (.input other) = true) : c.Covers place := by
  obtain ⟨kind, unread⟩ := exists_unread c
  have deeper : place.overlaps ⟨place.root, place.projections ++ [kind]⟩ = true :=
    overlaps_iff.mpr ⟨rfl, .inl (prefix_append _ _)⟩
  obtain ⟨o, ho, same | near⟩ := observes_iff.mp (h _ deeper)
  · exact absurd (by simp) (unread o ho _ (place.projections ++ [kind]) (by rw [same]; rfl))
  · obtain ⟨path, found, below | above⟩ := overlapsObservation_input.mp near
    · exact absurd (below.subset (by simp)) (unread o ho _ path found)
    · refine ⟨o, ho, path, found, ?_⟩
      rcases prefix_concat_iff.mp above with eq | above
      · exact absurd (by simp [eq]) (unread o ho _ path found)
      · exact above

/-- **OBSERVATION IS COMPLETE EXACTLY WHERE NOTHING IS HIDDEN**: without captured guards, all that
  overlaps an input is observed if and only if every input under a projection has an observation
  at it or above it. -/
theorem observes_inputs_iff (c : ExecutionCondition) (uncaptured : c.hasCaptured = false) :
    (∀ place ∈ c.inputs, ∀ other, place.overlaps other = true → c.observes (.input other) = true) ↔
      ∀ place ∈ c.hiddenInputs, c.Covers place := by
  constructor
  · intro complete place hidden
    exact covers_of_observes (complete place ((mem_inputs uncaptured).mpr (.inr hidden)))
  · intro covered place hp other near
    rcases (mem_inputs uncaptured).mp hp with shown | hidden
    · have above : c.Covers place := ⟨_, shown, place.projections, rfl, prefix_rfl⟩
      exact above.observes near
    · exact (covered place hidden).observes near

/-- The first argument. -/
def sampleInput : ExecutionCondition := .input ⟨.argument 0, []⟩

/-- A comparison of the argument with a component of it: the component is under a projection, and
  the argument itself is an observation. -/
theorem observes_inputs_iff_shown : (operation .equal [sampleInput,
    projection .nullableValue (call ⟨0, 0⟩ none [] [sampleInput])]).observes
      (.input ⟨.argument 0, [.productField 0]⟩) = true := by
  refine (observes_inputs_iff _ (by decide)).mpr (fun place hp => ?_) ⟨.argument 0, []⟩ (by decide) _ (by decide)
  obtain rfl : place = ⟨.argument 0, []⟩ := by
    simpa [sampleInput, hiddenInputs, hiddenAll, inputs, inputsAll] using hp
  exact ⟨sampleInput, by decide, [], rfl, nil_prefix⟩

/-- **A field of the result of a deterministic call** has the argument among its inputs and does not
  observe it. -/
theorem field_of_call_not_observed : ∃ c : ExecutionCondition, ∃ place,
    c = (call ⟨0, 0⟩ none [] [.input place]).component (.productField 0) ∧
      c.hasCaptured = false ∧ place ∈ c.inputs ∧ c.observes (.input place) = false :=
  ⟨(call ⟨0, 0⟩ none [] [sampleInput]).component (.productField 0), ⟨.argument 0, []⟩, rfl, by decide,
    by decide, by decide⟩

end ExecutionCondition

end Bray.Guarantee
