/-
  File:      Bray/Partition/Units.lean
  Subject:   THE CODE GENERATION UNITS of a closed graph (unit/partition.rs, unit/model.rs): the
    indivisible groups in a stable order, packed one after another.

  A pending unit grows group by group and is finished where the target or the providers change, where
  a group publishes alone or would exceed the bound, and at content-defined boundaries:

  * `CodegenUnit.tryFromPartition_ok` -- a unit has the instances it was made of, for one target, and
    exceeds the bound only where it was declared indivisible;
  * `Packed` -- the invariant of the packing: what was packed is in the units and the pending unit,
    and no group is in two of them;
  * **`partitionCodegenUnits_correct`** -- what a successful partition is.
-/
import Bray.Partition.Groups

namespace Bray.Partition

open Bray.Lib List

local instance keysLawful {K : Type} [LinearOrder K] : LawfulBEq K := inferInstance

/-! ## 1. One unit -/

inductive CodegenOversizedUnitReason where
  | indivisibleDefinition
  | indivisibleDependencyGroup

structure CodegenOversizedUnit where
  reason : CodegenOversizedUnitReason
  work : Nat
  upperBound : Nat

def CodegenOversizedUnit.indivisible (definitions work upperBound : Nat) : CodegenOversizedUnit :=
  ⟨if definitions = 1 then .indivisibleDefinition else .indivisibleDependencyGroup, work, upperBound⟩

/-- What the MIR and the digests tell the partition. -/
structure Backend (K T M R : Type) where
  target : K → T
  coff : T → Bool
  estimate : M → Nat
  demandedRuntimeReferences : M → List R
  groupDigest : CodegenPartitionPolicy → List K → Digest
  contentIdentity : CodegenPartitionPolicy → List CodegenPartitionCompatibility → Nat →
    Option CodegenOversizedUnit → List (CodegenInstance K M) → Digest

structure CodegenUnit (K T M : Type) where
  target : T
  estimatedWork : Nat
  oversized : Option CodegenOversizedUnit
  instances : List (CodegenInstance K M)
  compatibilities : List CodegenPartitionCompatibility
  externalInstances : List K
  contentIdentity : Digest

inductive CodegenUnitBuildError where
  | empty
  | duplicateInstance
  | missingCompatibility
  | targetMismatch
  | workBoundExceeded

variable {K T M U R : Type} [LinearOrder K] [LinearOrder T]

/-- The work of the definitions one after another. -/
def totalWork (backend : Backend K T M R) (instances : List (CodegenInstance K M)) : Nat :=
  instances.foldl (fun work known => saturatingAdd work (backend.estimate known.mir)) 0

def byKey (instances : List (CodegenInstance K M)) : List (CodegenInstance K M) :=
  instances.insertionSort fun left right => left.key ≤ right.key

def CodegenUnit.tryFromPartition (backend : Backend K T M R) (policy : CodegenPartitionPolicy)
  (instances : List (CodegenInstance K M))
  (compatibility : CodegenInstance K M → Option CodegenPartitionCompatibility)
  (indivisible : Bool) : Except CodegenUnitBuildError (CodegenUnit K T M) :=
  match byKey instances with
  | [] => .error .empty
  | first :: rest =>
    let instances := first :: rest
    if (instances.zip rest).any fun pair => pair.1.key = pair.2.key then .error .duplicateInstance
    else
      match instances.mapM compatibility with
      | none => .error .missingCompatibility
      | some compatibilities =>
        let target := backend.target first.key
        if instances.any fun known => backend.target known.key ≠ target then
          .error .targetMismatch
        else
          let membership := instances.map CodegenInstance.key
          let work := totalWork backend instances
          if work > policy.upperBound ∧ ¬ indivisible then .error .workBoundExceeded
          else
            let oversized :=
              if work > policy.upperBound then
                some (.indivisible instances.length work policy.upperBound)
              else none
            .ok {
              target
              estimatedWork := work
              oversized
              instances
              compatibilities
              externalInstances := sortedUniqueSharedSlice
                ((instances.flatMap fun known =>
                  known.dependencies.map CodegenInstanceDependency.instanceKey).filter
                    (· ∉ membership))
              contentIdentity :=
                backend.contentIdentity policy compatibilities work oversized instances }

/-! ## 2. The groups in order -/

/-- All directly named providers of a group. -/
structure PublicationDependencies (K R : Type) where
  instances : List K
  statics : List Digest
  runtime : List R
  deriving DecidableEq

def PublicationDependencies.none : PublicationDependencies K R := ⟨[], [], []⟩

structure PartitionGroup (K T M R : Type) where
  target : Option T
  instances : List (CodegenInstance K M)
  work : Nat
  anchor : Digest
  independentPublication : Bool
  dependencies : PublicationDependencies K R

variable [LinearOrder R]

/-- Overridable definitions and optional native references. -/
def overridable (backend : Backend K T M R) (entry : Classified K M) : Bool :=
  entry.2.nativeSelectionBoundary ∨ entry.2.linkage = .weak ∨ entry.2.linkage = .fallback ∨
    entry.2.linkage = .linkOnce ∧ ¬ backend.coff (backend.target entry.1.key)

/-- In a library they do not hide unrelated exports in their publication unit. -/
def independent (backend : Backend K T M R) (policy : CodegenPartitionPolicy)
  (entry : Classified K M) : Bool :=
  policy.identity = CodegenPartitionPolicy.nativeLibraryPublication.identity ∧ overridable backend entry

def PublicationDependencies.of (backend : Backend K T M R) (policy : CodegenPartitionPolicy)
  (entries : List (Classified K M)) : PublicationDependencies K R :=
  if policy.identity = CodegenPartitionPolicy.nativeLibraryPublication.identity then
    let owned := entries.map fun entry => entry.1.key
    { instances := sortedUniqueSharedSlice ((entries.flatMap fun entry =>
      entry.1.dependencies.map CodegenInstanceDependency.instanceKey).filter (· ∉ owned))
      statics := sortedUniqueSharedSlice ((entries.map fun entry =>
        entry.2.nativeStorageDependenciesIdentity).filter (· ≠ Digest.zero))
      runtime := sortedUniqueSharedSlice
        (entries.flatMap fun entry => backend.demandedRuntimeReferences entry.1.mir) }
  else .none

/-- The group of the positions. The source takes the target of its first member, which a required
  group has. -/
def PartitionGroup.new (backend : Backend K T M R) (policy : CodegenPartitionPolicy)
  (classified : List (Classified K M)) (members : List Nat) : PartitionGroup K T M R :=
  let entries := members.filterMap fun member => classified[member]?
  let instances := entries.map Prod.fst
  { target := instances.head?.map fun known => backend.target known.key
    instances
    work := totalWork backend instances
    anchor := backend.groupDigest policy (instances.map CodegenInstance.key)
    independentPublication := entries.any (independent backend policy)
    dependencies := .of backend policy entries }

def PublicationDependencies.compare (left right : PublicationDependencies K R) : Ordering :=
  (cmp left.instances right.instances).then <|
    (cmp left.statics right.statics).then (cmp left.runtime right.runtime)

/-- The order of the groups: two groups differ in their first key at the latest. -/
def PartitionGroup.compare (left right : PartitionGroup K T M R) : Ordering :=
  (cmp left.target.toList right.target.toList).then <| (left.dependencies.compare right.dependencies).then <|
      (cmp left.anchor right.anchor).then <| cmp (left.instances.head?.map CodegenInstance.key).toList
          (right.instances.head?.map CodegenInstance.key).toList

/-! ## 3. The packing -/

inductive CodegenPartitionError (K : Type) where
  | missingCompatibility (key : K)
  | invalidUnit (error : CodegenUnitBuildError)

/-- The finished units and the pending one. -/
structure Pending (K T M R : Type) where
  units : List (CodegenUnit K T M)
  current : List (CodegenInstance K M)
  currentWork : Nat
  currentDependencies : PublicationDependencies K R

variable (backend : Backend K T M R) (policy : CodegenPartitionPolicy)
  (compatibility : CodegenInstance K M → Option CodegenPartitionCompatibility)

def pushUnit (pending : Pending K T M R) (instances : List (CodegenInstance K M))
  (indivisible : Bool) : Except (CodegenPartitionError K) (Pending K T M R) :=
  match CodegenUnit.tryFromPartition backend policy instances compatibility indivisible with
  | .error error => .error (.invalidUnit error)
  | .ok unit => .ok { pending with units := pending.units ++ [unit] }

def finishUnit (pending : Pending K T M R) : Except (CodegenPartitionError K) (Pending K T M R) :=
  if pending.current = [] then .ok pending
  else pushUnit backend policy compatibility { pending with current := [], currentWork := 0 }
    pending.current false

/-- The pending unit must end before the group. -/
def endsBefore (pending : Pending K T M R) (group : PartitionGroup K T M R) : Bool :=
  (pending.current.head?.any fun known => some (backend.target known.key) ≠ group.target) ∨
    pending.current ≠ [] ∧ pending.currentDependencies ≠ group.dependencies ∨
    group.independentPublication ∨
    saturatingAdd pending.currentWork group.work > policy.upperBound

/-- The last bytes of the digest, the least first. The order of the groups uses the first ones. -/
def marker (anchor : Digest) : Nat :=
  (anchor.bytes.drop 24).foldr (fun byte rest => byte.val + 256 * rest) 0

def isContentBoundary (anchor : Digest) (groupWork : Nat) : Bool :=
  marker anchor % policy.targetWork < min groupWork policy.targetWork

/-- One group, after what had to be finished before it. -/
def addGroup (pending : Pending K T M R) (group : PartitionGroup K T M R) :
  Except (CodegenPartitionError K) (Pending K T M R) :=
  if group.independentPublication ∨ group.work > policy.upperBound then
    pushUnit backend policy compatibility pending group.instances true
  else
    let pending := { pending with
      currentDependencies := group.dependencies
      currentWork := saturatingAdd pending.currentWork group.work
      current := pending.current ++ group.instances }
    if pending.currentWork ≥ policy.lowerBound ∧ isContentBoundary policy group.anchor group.work then
      finishUnit backend policy compatibility pending
    else .ok pending

def packGroup (pending : Pending K T M R) (group : PartitionGroup K T M R) :
  Except (CodegenPartitionError K) (Pending K T M R) := do
  let pending ←
    if endsBefore backend policy pending group then finishUnit backend policy compatibility pending
    else pure pending
  addGroup backend policy compatibility pending group

/-- Every instance with its class, or the first that has none. -/
def classify (compatibility : CodegenInstance K M → Option CodegenPartitionCompatibility) :
  List (CodegenInstance K M) → Except (CodegenPartitionError K) (List (Classified K M))
  | [] => .ok []
  | known :: rest =>
    match compatibility known with
    | none => .error (.missingCompatibility known.key)
    | some class_ => do
      let classified ← classify compatibility rest
      pure ((known, class_) :: classified)

def classOf (classified : List (Classified K M)) (known : CodegenInstance K M) :
  Option CodegenPartitionCompatibility :=
  (classified.find? fun entry => entry.1.key = known.key).map Prod.snd

def orderedGroups (classified : List (Classified K M)) : List (PartitionGroup K T M R) :=
  ((requiredGroups classified).map (PartitionGroup.new backend policy classified)).insertionSort
    fun left right => left.compare right ≠ .gt

/-- **The partition of a closed graph.** -/
def partitionCodegenUnits (reachability : CodegenReachability K M) :
  Except (CodegenPartitionError K) (List (CodegenUnit K T M)) := do
  let classified ← classify compatibility reachability.instances
  let compatibility := classOf classified
  let pending ← (orderedGroups backend policy classified).foldlM
    (packGroup backend policy compatibility) ⟨[], [], 0, .none⟩
  let pending ← finishUnit backend policy compatibility pending
  pure pending.units

/-! ## 4. What a unit has -/

section Facts

variable {backend : Backend K T M R} {policy : CodegenPartitionPolicy}
  {compatibility : CodegenInstance K M → Option CodegenPartitionCompatibility}

omit [LinearOrder R] in
/-- **A unit has the instances it was made of**, for one target, and exceeds the bound only where it
  was declared indivisible. -/
theorem CodegenUnit.tryFromPartition_ok {instances : List (CodegenInstance K M)}
    {indivisible : Bool} {unit : CodegenUnit K T M}
    (h : CodegenUnit.tryFromPartition backend policy instances compatibility indivisible = .ok unit) :
    unit.instances.Perm instances ∧ (∀ known ∈ unit.instances, backend.target known.key = unit.target) ∧
      (policy.upperBound < unit.estimatedWork → indivisible) := by
  unfold CodegenUnit.tryFromPartition at h
  have perm : (byKey instances).Perm instances := perm_insertionSort _ _
  split at h
  · cases h
  · next first rest ordered =>
    rw [ordered] at perm
    dsimp only at h
    split at h
    · cases h
    · split at h
      · cases h
      · split at h
        · cases h
        · next uniform =>
          split at h
          · cases h
          · next bounded =>
            obtain rfl := Except.ok.inj h
            refine ⟨perm, fun known hk => ?_, fun exceeds => ?_⟩
            · by_contra other
              exact uniform (any_eq_true.mpr ⟨known, hk, by simpa using other⟩)
            · by_contra divisible
              exact bounded ⟨exceeds, divisible⟩

/-! ## 5. The packing -/

/-- **The invariant of the packing** after the groups that are done. -/
structure Packed (backend : Backend K T M R) (policy : CodegenPartitionPolicy)
  (done : List (PartitionGroup K T M R)) (pending : Pending K T M R) : Prop where
  whole : (pending.units.flatMap CodegenUnit.instances ++ pending.current).Perm
    (done.flatMap PartitionGroup.instances)
  kept : ∀ group ∈ done, (∃ unit ∈ pending.units, group.instances ⊆ unit.instances) ∨
    group.instances ⊆ pending.current
  oversized : ∀ unit ∈ pending.units, policy.upperBound < unit.estimatedWork →
    ∃ group ∈ done, unit.instances.Perm group.instances
  alone : ∀ group ∈ done, group.independentPublication → ∃ unit ∈ pending.units, unit.instances.Perm group.instances
  uniform : ∀ unit ∈ pending.units, ∀ known ∈ unit.instances, backend.target known.key = unit.target

omit [LinearOrder R] in
theorem pushUnit_ok {pending next : Pending K T M R} {instances : List (CodegenInstance K M)} {indivisible : Bool}
    (h : pushUnit backend policy compatibility pending instances indivisible = .ok next) :
  ∃ unit : CodegenUnit K T M, next = { pending with units := pending.units ++ [unit] } ∧
    unit.instances.Perm instances ∧
    (∀ known ∈ unit.instances, backend.target known.key = unit.target) ∧
    (policy.upperBound < unit.estimatedWork → indivisible) := by
  unfold pushUnit at h
  split at h
  · cases h
  · next unit made =>
    obtain rfl := Except.ok.inj h
    exact ⟨unit, rfl, CodegenUnit.tryFromPartition_ok made⟩

omit [LinearOrder R] in
/-- The pending instances become a unit. -/
theorem Packed.finishUnit {done : List (PartitionGroup K T M R)} {pending next : Pending K T M R}
    (h : Packed backend policy done pending)
    (finished : Partition.finishUnit backend policy compatibility pending = .ok next) :
    Packed backend policy done next ∧ next.current = [] := by
  unfold Partition.finishUnit at finished
  split at finished
  · next empty =>
    obtain rfl := Except.ok.inj finished
    exact ⟨h, empty⟩
  · obtain ⟨unit, rfl, perm, target, bound⟩ := pushUnit_ok finished
    refine ⟨⟨?_, fun group hg => .inl ?_, fun other ho exceeds => ?_, fun group hg own => ?_,
      fun other ho => ?_⟩, rfl⟩
    · simp only [flatMap_append, flatMap_singleton, append_nil]
      exact (perm.append_left _).trans h.whole
    · rcases h.kept group hg with ⟨other, ho, sub⟩ | sub
      · exact ⟨other, mem_append_left _ ho, sub⟩
      · exact ⟨unit, by simp, fun known hk => perm.mem_iff.mpr (sub hk)⟩
    · rcases mem_append.mp ho with ho | ho
      · exact h.oversized other ho exceeds
      · obtain rfl : other = unit := by simpa using ho
        exact absurd (bound exceeds) (by decide)
    · obtain ⟨other, ho, same⟩ := h.alone group hg own
      exact ⟨other, mem_append_left _ ho, same⟩
    · rcases mem_append.mp ho with ho | ho
      · exact h.uniform other ho
      · obtain rfl : other = unit := by simpa using ho
        exact target

omit [LinearOrder R] in
theorem Packed.pushGroup {done : List (PartitionGroup K T M R)} {pending next : Pending K T M R}
    {group : PartitionGroup K T M R} (h : Packed backend policy done pending)
    (pushed : pushUnit backend policy compatibility pending group.instances true = .ok next) :
    Packed backend policy (done ++ [group]) next := by
  obtain ⟨unit, rfl, perm, target, _⟩ := pushUnit_ok pushed
  constructor
  · simp only [flatMap_append, flatMap_singleton, append_assoc]
    refine (List.Perm.append_left _ perm_append_comm).trans ?_
    rw [← append_assoc]
    exact h.whole.append perm
  · intro other ho
    rcases mem_append.mp ho with ho | ho
    · refine (h.kept other ho).imp_left ?_
      rintro ⟨unit', hu, sub⟩
      exact ⟨unit', mem_append_left _ hu, sub⟩
    · obtain rfl : other = group := by simpa using ho
      exact .inl ⟨unit, by simp, fun known hk => perm.mem_iff.mpr hk⟩
  · intro other ho exceeds
    rcases mem_append.mp ho with ho | ho
    · obtain ⟨owner, ho, same⟩ := h.oversized other ho exceeds
      exact ⟨owner, mem_append_left _ ho, same⟩
    · obtain rfl : other = unit := by simpa using ho
      exact ⟨group, by simp, perm⟩
  · intro other ho own
    rcases mem_append.mp ho with ho | ho
    · obtain ⟨unit', hu, same⟩ := h.alone other ho own
      exact ⟨unit', mem_append_left _ hu, same⟩
    · obtain rfl : other = group := by simpa using ho
      exact ⟨unit, by simp, perm⟩
  · intro other ho
    rcases mem_append.mp ho with ho | ho
    · exact h.uniform other ho
    · obtain rfl : other = unit := by simpa using ho
      exact target

section

variable {done : List (PartitionGroup K T M R)} {pending next : Pending K T M R}
variable (h : Packed backend policy done pending)
include h

omit [LinearOrder R] in
theorem Packed.addGroup {group : PartitionGroup K T M R}
    (added : Partition.addGroup backend policy compatibility pending group = .ok next) :
    Packed backend policy (done ++ [group]) next := by
  unfold Partition.addGroup at added
  split at added
  · exact h.pushGroup added
  · next divisible =>
    have joined : Packed backend policy (done ++ [group]) { pending with
      currentDependencies := group.dependencies
      currentWork := saturatingAdd pending.currentWork group.work
      current := pending.current ++ group.instances } := by
      constructor
      · simp only [flatMap_append, flatMap_singleton]
        rw [← append_assoc]
        exact h.whole.append_right _
      · intro other ho
        rcases mem_append.mp ho with ho | ho
        · exact (h.kept other ho).imp_right fun sub => List.Subset.trans sub (subset_append_left _ _)
        · obtain rfl : other = group := by simpa using ho
          exact .inr (subset_append_right _ _)
      · intro other ho exceeds
        obtain ⟨owner, ho, same⟩ := h.oversized other ho exceeds
        exact ⟨owner, mem_append_left _ ho, same⟩
      · intro other ho own
        rcases mem_append.mp ho with ho | ho
        · exact h.alone other ho own
        · obtain rfl : other = group := by simpa using ho
          exact absurd (.inl own) divisible
      · exact h.uniform
    dsimp only at added
    split at added
    · exact (joined.finishUnit added).1
    · obtain rfl := Except.ok.inj added
      exact joined

/-- **A step of the packing adds one group.** -/
theorem Packed.packGroup {group : PartitionGroup K T M R}
    (packed : Partition.packGroup backend policy compatibility pending group = .ok next) :
    Packed backend policy (done ++ [group]) next := by
  unfold Partition.packGroup at packed
  split at packed
  · cases e : Partition.finishUnit backend policy compatibility pending with
    | error _ => simp [e, bind, Except.bind] at packed
    | ok middle =>
      rw [e] at packed
      exact (h.finishUnit e).1.addGroup packed
  · exact h.addGroup packed

end

theorem Packed.foldlM {groups done : List (PartitionGroup K T M R)} {pending next : Pending K T M R}
    (h : Packed backend policy done pending)
    (packed : groups.foldlM (Partition.packGroup backend policy compatibility) pending = .ok next) :
    Packed backend policy (done ++ groups) next := by
  induction groups generalizing done pending with
  | nil =>
    obtain rfl := Except.ok.inj packed
    simpa using h
  | cons group groups ih =>
    rw [foldlM_cons] at packed
    cases e : Partition.packGroup backend policy compatibility pending group with
    | error _ => simp [e, bind, Except.bind] at packed
    | ok middle =>
      rw [e] at packed
      rw [← singleton_append, ← append_assoc]
      exact ih (h.packGroup e) packed

/-! ## 6. The groups of a graph -/

omit [LinearOrder K] in
theorem classify_ok {instances : List (CodegenInstance K M)} {classified : List (Classified K M)}
    (h : classify compatibility instances = .ok classified) : instancesOf classified = instances ∧
      ∀ entry ∈ classified, compatibility entry.1 = some entry.2 := by
  induction instances generalizing classified with
  | nil =>
    obtain rfl := Except.ok.inj h
    exact ⟨rfl, nofun⟩
  | cons known instances ih =>
    rw [classify] at h
    split at h
    · cases h
    · next class_ found =>
      cases e : classify compatibility instances with
      | error _ => simp [e, bind, Except.bind] at h
      | ok rest =>
        rw [e] at h
        obtain rfl := Except.ok.inj h
        obtain ⟨names, classes⟩ := ih e
        exact ⟨by rw [instancesOf, map_cons, ← names], forall_mem_cons.mpr ⟨found, classes⟩⟩

theorem filterMap_range_getElem? {α : Type} (items : List α) :
    (List.range items.length).filterMap (fun i => items[i]?) = items := by
  induction items using List.reverseRecOn with
  | nil => rfl
  | append_singleton items item ih =>
    rw [length_append, length_singleton, range_succ, filterMap_append]
    have front : (List.range items.length).filterMap (fun i => (items ++ [item])[i]?) =
      (List.range items.length).filterMap fun i => items[i]? :=
      filterMap_congr fun i hi => getElem?_append_left (mem_range.mp hi)
    rw [front, ih]
    simp

variable {classified : List (Classified K M)}

omit [LinearOrder T] in
/-- The instances of a group are those at its positions. -/
theorem mem_new {members : List Nat} {x : CodegenInstance K M} :
    x ∈ (PartitionGroup.new backend policy classified members).instances ↔
      ∃ i ∈ members, ∃ entry, classified[i]? = some entry ∧ entry.1 = x := by
  simp only [PartitionGroup.new, mem_map, mem_filterMap]
  constructor
  · rintro ⟨entry, ⟨i, hi, at_⟩, rfl⟩
    exact ⟨i, hi, entry, at_, rfl⟩
  · rintro ⟨i, hi, entry, at_, rfl⟩
    exact ⟨entry, ⟨i, hi, at_⟩, rfl⟩

section

variable (classes : ∀ entry ∈ classified, compatibility entry.1 = some entry.2) (keyed : Keyed classified)
include classes keyed

theorem orderedGroups_perm : ((orderedGroups backend policy classified).flatMap PartitionGroup.instances).Perm
      (instancesOf classified) := by
  have sorted : (orderedGroups backend policy classified).Perm
    ((requiredGroups classified).map (PartitionGroup.new backend policy classified)) :=
    perm_insertionSort _ _
  refine (sorted.flatMap_right _).trans ?_
  have flat : ((requiredGroups classified).map (PartitionGroup.new backend policy classified)).flatMap
    PartitionGroup.instances = ((requiredGroups classified).flatten.filterMap
      fun i => classified[i]?).map Prod.fst := by
    rw [filterMap_flatten, map_flatten, flatMap_map, flatMap_def, map_map]
    rfl
  rw [flat]
  have whole := ((requiredGroups_perm classes keyed).filterMap fun i => classified[i]?).map Prod.fst
  rwa [filterMap_range_getElem?] at whole

/-- **A group is all that cannot be parted from one of its instances.** -/
theorem mem_orderedGroup_iff {group : PartitionGroup K T M R}
    (h : group ∈ orderedGroups backend policy classified) {x : CodegenInstance K M}
    (hx : x ∈ group.instances) (y : CodegenInstance K M) : y ∈ group.instances ↔
      Relation.EqvGen (Together compatibility (instancesOf classified)) x y := by
  obtain ⟨members, hm, rfl⟩ := mem_map.mp ((mem_insertionSort _).mp h)
  obtain ⟨_, inside, exact⟩ := mem_group_iff classes keyed hm
  obtain ⟨i, hi, u, at_, rfl⟩ := mem_new.mp hx
  rw [mem_new]
  constructor
  · rintro ⟨j, hj, v, at', rfl⟩
    exact (joined_iff classes keyed at_ at').mp ((exact i hi j).mp hj).2
  · intro related
    have listed : y ∈ instancesOf classified := by
      have both (a b : CodegenInstance K M)
        (h : Relation.EqvGen (Together compatibility (instancesOf classified)) a b) :
        a ∈ instancesOf classified ↔ b ∈ instancesOf classified := by
        induction h with
        | rel _ _ h => exact ⟨fun _ => h.2.1, fun _ => h.1⟩
        | refl _ => rfl
        | symm _ _ _ ih => exact ih.symm
        | trans _ _ _ _ _ ih ih' => exact ih.trans ih'
      exact (both _ _ related).mp (mem_instancesOf at_)
    obtain ⟨j, v, at', rfl⟩ := at_of_mem listed
    refine ⟨j, (exact i hi j).mpr ⟨(List.getElem_of_getElem? at').1, ?_⟩, v, at', rfl⟩
    exact (joined_iff classes keyed at_ at').mpr related

end

/-- A group with an overridable definition publishes alone in a library. -/
theorem independent_of_mem {group : PartitionGroup K T M R} (h : group ∈ orderedGroups backend policy classified)
    (library : policy.identity = CodegenPartitionPolicy.nativeLibraryPublication.identity)
    (keyed : Keyed classified) {entry : Classified K M} (he : entry ∈ classified)
    (hx : entry.1 ∈ group.instances) (own : overridable backend entry) : group.independentPublication := by
  obtain ⟨members, hm, rfl⟩ := mem_map.mp ((mem_insertionSort _).mp h)
  obtain ⟨i, hi, u, at_, same⟩ := mem_new.mp hx
  obtain rfl : u = entry := entry_unique keyed (mem_of_getElem? at_) he (by rw [same])
  refine any_eq_true.mpr ⟨u, mem_filterMap.mpr ⟨i, hi, at_⟩, ?_⟩
  simp [independent, library, own]

/-- In lists without repetition one item belongs to one of them. -/
theorem eq_of_mem_flatMap {α β : Type} {f : α → List β} {items : List α}
    (nodup : (items.flatMap f).Nodup) {a b : α} (ha : a ∈ items) (hb : b ∈ items) {x : β}
    (hxa : x ∈ f a) (hxb : x ∈ f b) : a = b := by
  have apart := (nodup_flatMap.mp nodup).2
  have symmetric : Std.Symm (Function.onFun List.Disjoint f) := ⟨fun _ _ h => h.symm⟩
  by_contra ne
  exact disjoint_left.mp (apart.forall ha hb ne) hxa hxb

/-! ## 7. The partition -/

/-- What a successful partition packed. -/
theorem packed_of_partition {reachability : CodegenReachability K M} {units : List (CodegenUnit K T M)}
    (h : partitionCodegenUnits backend policy compatibility reachability = .ok units) :
    ∃ classified pending, classify compatibility reachability.instances = .ok classified ∧
      Packed backend policy (orderedGroups backend policy classified) pending ∧
      pending.current = [] ∧ pending.units = units := by
  unfold partitionCodegenUnits at h
  cases named : classify compatibility reachability.instances with
  | error _ => simp [named, bind, Except.bind] at h
  | ok classified =>
    rw [named] at h
    cases packed : (orderedGroups backend policy classified).foldlM
      (packGroup backend policy (classOf classified)) ⟨[], [], 0, .none⟩ with
    | error _ => simp [packed, bind, Except.bind] at h
    | ok middle =>
      simp only [bind, Except.bind, packed] at h
      cases finished : finishUnit backend policy (classOf classified) middle with
      | error _ => simp [finished] at h
      | ok pending =>
        rw [finished] at h
        have start : Packed backend policy [] (⟨[], [], 0, .none⟩ : Pending K T M R) :=
          ⟨.refl _, nofun, nofun, nofun, nofun⟩
        obtain ⟨kept, empty⟩ := (start.foldlM packed).finishUnit finished
        exact ⟨classified, pending, rfl, by simpa using kept, empty, Except.ok.inj h⟩

/-- **A successful partition is a partition**: every instance is in one unit, a unit has one target,
  what cannot be parted is in one unit, a unit over the bound is one indivisible group, an
  overridable definition of a library is in a unit of its own group, and the order of the roots, of
  the dependencies and of the calls that built the graph decides nothing. -/
theorem partitionCodegenUnits_correct [DecidableEq U] (backend : Backend K T M R) (policy : CodegenPartitionPolicy)
    (compatibility : CodegenInstance K M → Option CodegenPartitionCompatibility)
    (reachability : CodegenReachability K M) (units : List (CodegenUnit K T M))
    (h : partitionCodegenUnits backend policy compatibility reachability = .ok units) :
    (units.flatMap CodegenUnit.instances).Perm reachability.instances ∧
      (units.flatMap CodegenUnit.instances).Nodup ∧
      (∀ unit ∈ units, ∀ x ∈ unit.instances, backend.target x.key = unit.target) ∧
      (∀ unit ∈ units, ∀ x ∈ reachability.instances, ∀ y ∈ reachability.instances,
        ∀ dependency ∈ x.dependencies, dependency.instanceKey = y.key → (dependency.kind = .directAwaitedFrame ∨
            ∃ known, compatibility y = some known ∧ known.visibility = .unit) →
          (x ∈ unit.instances ↔ y ∈ unit.instances)) ∧
      (∀ unit ∈ units, ∀ x ∈ reachability.instances, ∀ y ∈ reachability.instances,
        Relation.ReflTransGen (Depends reachability.instances) x y →
          Relation.ReflTransGen (Depends reachability.instances) y x → (x ∈ unit.instances ↔ y ∈ unit.instances)) ∧
      (∀ unit ∈ units, policy.upperBound < unit.estimatedWork →
        ∃ x ∈ reachability.instances, ∀ y, y ∈ unit.instances ↔
          Relation.EqvGen (Together compatibility reachability.instances) x y) ∧
      (policy.identity = CodegenPartitionPolicy.nativeLibraryPublication.identity →
        ∀ x ∈ reachability.instances, ∀ known, compatibility x = some known →
          overridable backend (x, known) → ∃ unit ∈ units, ∀ y, y ∈ unit.instances ↔
            Relation.EqvGen (Together compatibility reachability.instances) x y) ∧
      ∀ (identities : Identities K T M U) (define define' : Definitions K M) (roots roots' : List K)
        (reachability' : CodegenReachability K M), Built identities define roots reachability →
        Built identities define' roots' reachability' → Agree define define' → (∀ key, key ∈ roots ↔ key ∈ roots') →
        partitionCodegenUnits backend policy compatibility reachability' = .ok units := by
  obtain ⟨classified, pending, named, packed, empty, rfl⟩ := packed_of_partition h
  obtain ⟨names, classes⟩ := classify_ok named
  have keyed : Keyed classified := by
    have nodup := reachability.sorted.imp ne_of_lt
    rw [← names, map_map] at nodup
    exact nodup
  have distinct : reachability.instances.Nodup := by
    rw [← names]
    exact List.Nodup.of_map CodegenInstance.key (by rwa [map_map])
  have whole : (pending.units.flatMap CodegenUnit.instances).Perm reachability.instances := by
    have perm := packed.whole.trans (orderedGroups_perm classes keyed)
    rwa [empty, append_nil, names] at perm
  have nodup := whole.nodup_iff.mpr distinct
  -- the group of an instance lies in one unit
  have grouped (x : CodegenInstance K M) (hx : x ∈ reachability.instances) :
    ∃ group ∈ orderedGroups backend policy classified, x ∈ group.instances ∧ (∀ y, y ∈ group.instances ↔
        Relation.EqvGen (Together compatibility reachability.instances) x y) ∧
      ∃ unit ∈ pending.units, group.instances ⊆ unit.instances := by
    have listed : x ∈ (orderedGroups backend policy classified).flatMap PartitionGroup.instances :=
      (orderedGroups_perm classes keyed).mem_iff.mpr (names ▸ hx)
    obtain ⟨group, hg, hxg⟩ := mem_flatMap.mp listed
    refine ⟨group, hg, hxg, names ▸ mem_orderedGroup_iff classes keyed hg hxg, ?_⟩
    rcases packed.kept group hg with kept | kept
    · exact kept
    · rw [empty] at kept
      exact absurd (kept hxg) not_mem_nil
  have together {x y : CodegenInstance K M}
    (h : Together compatibility reachability.instances x y) (unit : CodegenUnit K T M)
    (hu : unit ∈ pending.units) : x ∈ unit.instances ↔ y ∈ unit.instances := by
    obtain ⟨group, hg, hxg, exact, owner, ho, sub⟩ := grouped x h.1
    have hx := sub hxg
    have hy := sub ((exact y).mpr (.rel _ _ h))
    constructor
    · intro hxu
      exact eq_of_mem_flatMap nodup ho hu hx hxu ▸ hy
    · intro hyu
      exact eq_of_mem_flatMap nodup ho hu hy hyu ▸ hx
  refine ⟨whole, nodup, packed.uniform, ?_, ?_, ?_, ?_, ?_⟩
  · intro unit hu x hx y hy d hd named keeps
    exact together ⟨hx, hy, .inl ⟨d, hd, named, keeps⟩⟩ unit hu
  · intro unit hu x hx y hy there back
    exact together ⟨hx, hy, .inr ⟨there, back⟩⟩ unit hu
  · intro unit hu exceeds
    obtain ⟨group, hg, same⟩ := packed.oversized unit hu exceeds
    obtain ⟨members, hm, rfl⟩ := mem_map.mp ((mem_insertionSort _).mp hg)
    obtain ⟨nonempty, inside, _⟩ := mem_group_iff classes keyed hm
    obtain ⟨i, hi⟩ := exists_mem_of_ne_nil _ nonempty
    obtain ⟨entry, at_⟩ : ∃ entry, classified[i]? = some entry :=
      ⟨_, getElem?_eq_getElem (inside i hi)⟩
    have mem : entry.1 ∈ (PartitionGroup.new backend policy classified members).instances :=
      mem_new.mpr ⟨i, hi, entry, at_, rfl⟩
    refine ⟨entry.1, names ▸ mem_instancesOf at_, fun y => ?_⟩
    rw [same.mem_iff, mem_orderedGroup_iff classes keyed hg mem, names]
  · intro library x hx known found own
    obtain ⟨group, hg, hxg, exact, _⟩ := grouped x hx
    obtain ⟨entry, he, rfl⟩ := mem_map.mp (names ▸ hx : x ∈ instancesOf classified)
    obtain rfl := Option.some.inj ((classes entry he).symm.trans found)
    obtain ⟨unit, hu, same⟩ := packed.alone group hg (independent_of_mem hg library keyed he hxg own)
    exact ⟨unit, hu, fun y => same.mem_iff.trans (exact y)⟩
  · intro identities define define' roots roots' reachability' built built' agree same
    rwa [← built.unique built' agree same]

end Facts

/-- Work is the MIR itself, and all digests are zero. -/
def plainBackend : Backend Nat Nat Nat Nat :=
  ⟨fun _ => 0, fun _ => false, id, fun _ => [], fun _ _ => .zero, fun _ _ _ _ _ => .zero⟩

/-- One instance awaits another directly, and a third stands alone. -/
def awaitedGraph : CodegenReachability Nat Nat :=
  ⟨[0, 1], [⟨0, 300, [⟨.directAwaitedFrame, 2⟩]⟩, ⟨1, 10, []⟩, ⟨2, 20, []⟩], [], by decide⟩

theorem partitionCodegenUnits_correct_awaited : ∃ units : List (CodegenUnit Nat Nat Nat),
    partitionCodegenUnits plainBackend .nativeLibraryPublication
      (fun _ => some ⟨.external, .product, false, .zero⟩) awaitedGraph = .ok units ∧
    (units.map fun unit => unit.instances.map CodegenInstance.key) = [[0, 2], [1]] ∧
    (units.flatMap CodegenUnit.instances).Perm awaitedGraph.instances :=
  ⟨_, rfl, rfl, (partitionCodegenUnits_correct (U := Nat) plainBackend .nativeLibraryPublication
    (fun _ => some ⟨.external, .product, false, .zero⟩) awaitedGraph _ rfl).1⟩

end Bray.Partition
