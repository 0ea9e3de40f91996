/-
  File:      Bray/Partition/Graph.lean
  Subject:   THE CLOSED GRAPH OF CONCRETE INSTANCES that code generation partitions, and the builder
    that demands it from its roots (unit/instance.rs, unit/graph.rs).

  Whoever resolves a frontier may publish its instances in any order, name the roots and the
  dependencies of an instance in any order, and continue a closed graph from new roots:

  * `Demanded` -- the keys that the roots reach along dependencies, given what each key resolves to;
  * `Invariant` -- the builder knows demanded keys only, and every key demanded of it;
  * **`Built.instances`** -- a graph that was built holds the resolved instances of the demanded keys
    in key order, so two builds from the same roots and definitions give one graph
    (`Built.unique`).
-/
import Mathlib.Data.Finset.Sort
import Mathlib.Data.Prod.Lex
import Bray.Lib.SortedMap

namespace Bray.Partition

open Bray.Lib List

/-! ## 1. Instances -/

/-- Why one concrete definition makes another reachable. -/
inductive CodegenInstanceDependencyKind where
  | definition
  | directAwaitedFrame
  | startedTask
  deriving DecidableEq

def CodegenInstanceDependencyKind.code : CodegenInstanceDependencyKind → Nat
  | definition => 0
  | directAwaitedFrame => 1
  | startedTask => 2

structure CodegenInstanceDependency (K : Type) where
  kind : CodegenInstanceDependencyKind
  instanceKey : K

variable {K T M U : Type}

/-- Dependencies are ordered by their kind, then by the instance. -/
def CodegenInstanceDependency.order (dependency : CodegenInstanceDependency K) : Nat ×ₗ K :=
  toLex (dependency.kind.code, dependency.instanceKey)

theorem CodegenInstanceDependency.order_injective :
    Function.Injective (CodegenInstanceDependency.order (K := K)) := by
  rintro ⟨kind, key⟩ ⟨kind', key'⟩ h
  obtain ⟨codes, rfl⟩ := Prod.mk.inj h
  cases kind <;> cases kind' <;> first | rfl | cases codes

instance [LinearOrder K] : LinearOrder (CodegenInstanceDependency K) :=
  LinearOrder.lift' _ CodegenInstanceDependency.order_injective

/-- The items in order, equal ones once. In a sorted list equal items are neighbours. -/
def sortedUniqueSharedSlice {α : Type} [LinearOrder α] (items : List α) : List α :=
  (items.insertionSort (· ≤ ·)).dedup

theorem sortedUniqueSharedSlice_eq {α : Type} [LinearOrder α] {items items' : List α}
    (same : ∀ x, x ∈ items ↔ x ∈ items') : sortedUniqueSharedSlice items = sortedUniqueSharedSlice items' := by
  have sorted (items : List α) : (sortedUniqueSharedSlice items).Pairwise (· ≤ ·) :=
    (pairwise_insertionSort (· ≤ ·) items).sublist (dedup_sublist _)
  refine List.Perm.eq_of_pairwise' (sorted items) (sorted items') ?_
  refine (perm_ext_iff_of_nodup (nodup_dedup _) (nodup_dedup _)).mpr fun x => ?_
  rw [mem_dedup, mem_dedup, mem_insertionSort, mem_insertionSort, same]

/-- What an instance key and a MIR unit tell of themselves: the template and the target. -/
structure Identities (K T M U : Type) where
  template : K → U
  target : K → T
  mirKey : M → U
  mirTarget : M → T

inductive CodegenInstanceBuildError where
  | templateMismatch
  | targetMismatch
  | dependencyTargetMismatch

/-- One concrete definition and its dependencies. -/
structure CodegenInstance (K M : Type) where
  key : K
  mir : M
  dependencies : List (CodegenInstanceDependency K)

def CodegenInstance.tryNew [LinearOrder K] [DecidableEq T] [DecidableEq U]
  (identities : Identities K T M U) (key : K) (mir : M)
  (dependencies : List (CodegenInstanceDependency K)) :
  Except CodegenInstanceBuildError (CodegenInstance K M) :=
  if identities.template key ≠ identities.mirKey mir then .error .templateMismatch
  else if identities.target key ≠ identities.mirTarget mir then .error .targetMismatch
  else
    let dependencies := sortedUniqueSharedSlice dependencies
    if dependencies.any fun dependency =>
      identities.target dependency.instanceKey ≠ identities.target key
    then .error .dependencyTargetMismatch
    else .ok ⟨key, mir, dependencies⟩

/-! ## 2. The builder -/

variable [LinearOrder K]

local instance keysTrans : IsTrans K (· ≤ ·) := inferInstance
local instance keysAntisymm : Std.Antisymm (· ≤ · : K → K → Prop) := inferInstance
local instance keysTransCmp : Std.TransCmp (compare : K → K → Ordering) := inferInstance

/-- The closed graph: roots, instances and external leaves, each in key order. -/
structure CodegenReachability (K M : Type) [LinearOrder K] where
  roots : List K
  instances : List (CodegenInstance K M)
  external : List K
  sorted : (instances.map CodegenInstance.key).Pairwise (· < ·)

theorem CodegenReachability.ext' {graph graph' : CodegenReachability K M}
    (roots : graph.roots = graph'.roots) (instances : graph.instances = graph'.instances)
    (external : graph.external = graph'.external) : graph = graph' := by
  cases graph
  cases roots
  cases instances
  cases external
  rfl

def CodegenReachability.table (graph : CodegenReachability K M) :
  SortedMap (compare : K → K → Ordering) (CodegenInstance K M) where
  entries := graph.instances.map fun known => (known.key, known)
  sorted := pairwise_map.mpr <| (pairwise_map.mp graph.sorted).imp
    fun h => compare_lt_iff_lt.mpr h

theorem CodegenReachability.get?_table {graph : CodegenReachability K M} {key : K}
    {resolved : CodegenInstance K M} :
    graph.table.get? key = some resolved ↔ resolved ∈ graph.instances ∧ resolved.key = key := by
  rw [SortedMap.get?_eq_some, CodegenReachability.table, mem_map]
  constructor
  · rintro ⟨known, mem, e⟩
    obtain ⟨rfl, rfl⟩ := Prod.mk.inj e
    exact ⟨mem, rfl⟩
  · rintro ⟨mem, rfl⟩
    exact ⟨resolved, mem, rfl⟩

inductive CodegenReachabilityBuildError where
  | emptyRoots
  | duplicateInstance
  | instanceWasNotDemanded
  | incomplete

/-- The instances published so far are kept under their own key. -/
structure CodegenReachabilityBuilder (K M : Type) [LinearOrder K] where
  roots : Finset K
  pending : Finset K
  demanded : Finset K
  instances : SortedMap (compare : K → K → Ordering) (CodegenInstance K M)
  external : Finset K
  keyed : ∀ entry ∈ instances.entries, entry.2.key = entry.1

namespace CodegenReachabilityBuilder

def tryNew (roots : List K) :
  Except CodegenReachabilityBuildError (CodegenReachabilityBuilder K M) :=
  if roots.toFinset = ∅ then .error .emptyRoots
  else .ok ⟨roots.toFinset, roots.toFinset, ∅, .empty _ _, ∅, nofun⟩

/-- A closed graph is continued from new roots, without the definitions it has. -/
def tryExtend (existing : CodegenReachability K M) (roots : List K) :
  Except CodegenReachabilityBuildError (CodegenReachabilityBuilder K M) :=
  if roots.toFinset = ∅ then .error .emptyRoots
  else .ok {
    roots := roots.toFinset
    pending := roots.toFinset.filter fun key =>
      key ∉ existing.instances.map CodegenInstance.key ∧ key ∉ existing.external
    demanded := ∅
    instances := existing.table
    external := existing.external.toFinset
    keyed := by simp [CodegenReachability.table] }

/-- The frontier in key order: it is demanded from now on. -/
def takeFrontier (builder : CodegenReachabilityBuilder K M) :
  CodegenReachabilityBuilder K M × List K :=
  ({ builder with pending := ∅, demanded := builder.demanded ∪ builder.pending }, builder.pending.sort (· ≤ ·))

/-- A demanded instance with its dependencies that nobody asked for yet. -/
def publish (builder : CodegenReachabilityBuilder K M) (resolved : CodegenInstance K M) :
  CodegenReachabilityBuilder K M :=
  let demanded := builder.demanded.erase resolved.key
  let found := (resolved.dependencies.map CodegenInstanceDependency.instanceKey).filter
    fun dependency => dependency ≠ resolved.key ∧ (builder.instances.get? dependency).isNone ∧
      dependency ∉ builder.external ∧ dependency ∉ demanded
  { builder with
    pending := builder.pending ∪ found.toFinset
    demanded
    instances := builder.instances.insert resolved.key resolved
    keyed := fun entry mem => by
      rcases SortedMap.mem_insert.mp mem with ⟨h, h'⟩ | ⟨_, h⟩
      · rw [h, h']
      · exact builder.keyed entry h }

def pushInstance (builder : CodegenReachabilityBuilder K M) (resolved : CodegenInstance K M) :
  Except CodegenReachabilityBuildError (CodegenReachabilityBuilder K M) :=
  if (builder.instances.get? resolved.key).isSome then .error .duplicateInstance
  else if resolved.key ∉ builder.demanded then .error .instanceWasNotDemanded
  else .ok (builder.publish resolved)

def pushExternal (builder : CodegenReachabilityBuilder K M) (key : K) :
  Except CodegenReachabilityBuildError (CodegenReachabilityBuilder K M) :=
  if (builder.instances.get? key).isSome ∨ key ∈ builder.external then .error .duplicateInstance
  else if key ∉ builder.demanded then .error .instanceWasNotDemanded
  else .ok { builder with
    external := insert key builder.external, demanded := builder.demanded.erase key }

def finish (builder : CodegenReachabilityBuilder K M) :
  Except CodegenReachabilityBuildError (CodegenReachability K M) :=
  if builder.pending ≠ ∅ ∨ builder.demanded ≠ ∅ then .error .incomplete
  else .ok {
    roots := builder.roots.sort (· ≤ ·)
    instances := builder.instances.entries.map Prod.snd
    external := builder.external.sort (· ≤ ·)
    sorted := by
      rw [map_map]
      have keys : builder.instances.entries.map (CodegenInstance.key ∘ Prod.snd) =
        builder.instances.entries.map Prod.fst :=
        map_congr_left fun entry mem => builder.keyed entry mem
      rw [keys, pairwise_map]
      exact builder.instances.sorted.imp fun h => compare_lt_iff_lt.mp h }

end CodegenReachabilityBuilder

/-! ## 3. Builds in any order -/

/-- What a key resolves to: its MIR and dependencies, or nothing for an external leaf. -/
abbrev Definitions (K M : Type) := K → Option (M × List (CodegenInstanceDependency K))

/-- The keys that the roots reach. -/
inductive Demanded (define : Definitions K M) (roots : List K) : K → Prop where
  | root {key : K} : key ∈ roots → Demanded define roots key
  | dependency {key : K} {mir : M} {dependencies : List (CodegenInstanceDependency K)}
    {dependency : CodegenInstanceDependency K} : Demanded define roots key →
    define key = some (mir, dependencies) → dependency ∈ dependencies →
    Demanded define roots dependency.instanceKey

section Build

variable [DecidableEq T] [DecidableEq U] (identities : Identities K T M U)

/-- One call on the builder: a frontier is taken, or a demanded key is resolved. -/
inductive Step (define : Definitions K M) :
  CodegenReachabilityBuilder K M → CodegenReachabilityBuilder K M → Prop where
  | takeFrontier (builder) : Step define builder builder.takeFrontier.1
  | pushInstance {builder next : CodegenReachabilityBuilder K M} {key : K} {mir : M}
    {dependencies : List (CodegenInstanceDependency K)} {resolved : CodegenInstance K M} :
    define key = some (mir, dependencies) →
    CodegenInstance.tryNew identities key mir dependencies = .ok resolved →
    builder.pushInstance resolved = .ok next → Step define builder next
  | pushExternal {builder next : CodegenReachabilityBuilder K M} {key : K} :
    define key = none → builder.pushExternal key = .ok next → Step define builder next

/-- A graph built from the roots, or continued from one whose roots the new ones retain. -/
inductive Built (define : Definitions K M) : List K → CodegenReachability K M → Prop where
  | new {roots : List K} {start builder : CodegenReachabilityBuilder K M}
    {graph : CodegenReachability K M} :
    CodegenReachabilityBuilder.tryNew roots = .ok start →
    Relation.ReflTransGen (Step identities define) start builder →
    builder.finish = .ok graph → Built define roots graph
  | extend {before roots : List K} {existing graph : CodegenReachability K M}
    {start builder : CodegenReachabilityBuilder K M} :
    Built define before existing → (∀ key ∈ before, Demanded define roots key) →
    CodegenReachabilityBuilder.tryExtend existing roots = .ok start →
    Relation.ReflTransGen (Step identities define) start builder →
    builder.finish = .ok graph → Built define roots graph

variable {identities} {define : Definitions K M} {roots : List K}

/-- A key the builder waits for, or knows the answer of. -/
def Knows (builder : CodegenReachabilityBuilder K M) (key : K) : Prop :=
  key ∈ builder.pending ∨ key ∈ builder.demanded ∨ key ∈ builder.external ∨ (builder.instances.get? key).isSome

/-- **The invariant of a build.** -/
structure Invariant (identities : Identities K T M U) (define : Definitions K M) (roots : List K)
  (builder : CodegenReachabilityBuilder K M) : Prop where
  rooted : builder.roots = roots.toFinset
  sound : ∀ key, Knows builder key → Demanded define roots key
  started : ∀ key ∈ roots, Knows builder key
  resolved : ∀ key resolved, builder.instances.get? key = some resolved →
    ∃ mir dependencies, define key = some (mir, dependencies) ∧
      CodegenInstance.tryNew identities key mir dependencies = .ok resolved ∧
      ∀ dependency ∈ dependencies, Knows builder dependency.instanceKey
  leaf : ∀ key ∈ builder.external, define key = none

/-- An instance that was made has the items it was made of. -/
theorem CodegenInstance.tryNew_ok {key : K} {mir : M}
    {dependencies : List (CodegenInstanceDependency K)} {resolved : CodegenInstance K M}
    (h : CodegenInstance.tryNew identities key mir dependencies = .ok resolved) :
    resolved = ⟨key, mir, sortedUniqueSharedSlice dependencies⟩ := by
  unfold CodegenInstance.tryNew at h
  split at h
  · cases h
  · split at h
    · cases h
    · dsimp only at h
      split at h
      · cases h
      · cases h
        rfl

theorem Invariant.takeFrontier {builder : CodegenReachabilityBuilder K M}
    (h : Invariant identities define roots builder) : Invariant identities define roots builder.takeFrontier.1 := by
  have same (key : K) : Knows builder.takeFrontier.1 key ↔ Knows builder key := by
    simp only [Knows, CodegenReachabilityBuilder.takeFrontier, Finset.mem_union, Finset.notMem_empty, false_or]
    tauto
  refine ⟨h.rooted, fun key hk => h.sound key ((same key).mp hk),
    fun key hk => (same key).mpr (h.started key hk), fun key resolved found => ?_, h.leaf⟩
  obtain ⟨mir, dependencies, defined, made, all⟩ := h.resolved key resolved found
  exact ⟨mir, dependencies, defined, made, fun d hd => (same _).mpr (all d hd)⟩

theorem CodegenReachabilityBuilder.pushInstance_ok {builder next : CodegenReachabilityBuilder K M}
    {resolved : CodegenInstance K M} (h : builder.pushInstance resolved = .ok next) :
    resolved.key ∈ builder.demanded ∧ next = builder.publish resolved := by
  unfold CodegenReachabilityBuilder.pushInstance at h
  split at h
  · cases h
  · split at h
    · cases h
    · next waited =>
      cases h
      exact ⟨not_not.mp waited, rfl⟩

theorem CodegenReachabilityBuilder.pushExternal_ok {builder next : CodegenReachabilityBuilder K M}
    {key : K} (h : builder.pushExternal key = .ok next) :
    key ∈ builder.demanded ∧ (builder.instances.get? key).isNone ∧ next = { builder with
      external := insert key builder.external, demanded := builder.demanded.erase key } := by
  unfold CodegenReachabilityBuilder.pushExternal at h
  split at h
  · cases h
  · next absent =>
    split at h
    · cases h
    · next waited =>
      cases h
      exact ⟨not_not.mp waited, by simpa using (not_or.mp absent).1, rfl⟩

theorem CodegenReachabilityBuilder.get?_publish (builder : CodegenReachabilityBuilder K M)
    (resolved : CodegenInstance K M) (key : K) : (builder.publish resolved).instances.get? key =
      if key = resolved.key then some resolved else builder.instances.get? key :=
  SortedMap.get?_insert key

theorem knows_publish {builder : CodegenReachabilityBuilder K M} {resolved : CodegenInstance K M}
    (waited : resolved.key ∈ builder.demanded) (key : K) :
    Knows (builder.publish resolved) key ↔ Knows builder key ∨
      ∃ dependency ∈ resolved.dependencies, dependency.instanceKey = key := by
  unfold Knows
  rw [CodegenReachabilityBuilder.get?_publish]
  simp only [CodegenReachabilityBuilder.publish, Finset.mem_union, mem_toFinset,
    mem_filter, mem_map, Finset.mem_erase, decide_eq_true_eq]
  by_cases self : key = resolved.key
  · simp [self, waited]
  · rw [if_neg self]
    constructor
    · rintro ((h | ⟨h, _⟩) | ⟨_, h⟩ | h | h)
      · exact .inl (.inl h)
      · exact .inr h
      · exact .inl (.inr (.inl h))
      · exact .inl (.inr (.inr (.inl h)))
      · exact .inl (.inr (.inr (.inr h)))
    · rintro ((h | h | h | h) | h)
      · exact .inl (.inl h)
      · exact .inr (.inl ⟨self, h⟩)
      · exact .inr (.inr (.inl h))
      · exact .inr (.inr (.inr h))
      · by_cases found : (builder.instances.get? key).isSome
        · exact .inr (.inr (.inr found))
        by_cases leaf : key ∈ builder.external
        · exact .inr (.inr (.inl leaf))
        by_cases waits : key ∈ builder.demanded
        · exact .inr (.inl ⟨self, waits⟩)
        · exact .inl (.inr ⟨h, self, by simpa using found, leaf, fun hw => waits hw.2⟩)

section

variable {builder next : CodegenReachabilityBuilder K M} (h : Invariant identities define roots builder)
include h

/-- **A published instance keeps the invariant.** -/
theorem Invariant.pushInstance {key : K} {mir : M}
    {dependencies : List (CodegenInstanceDependency K)} {resolved : CodegenInstance K M}
    (defined : define key = some (mir, dependencies))
    (made : CodegenInstance.tryNew identities key mir dependencies = .ok resolved)
    (pushed : builder.pushInstance resolved = .ok next) : Invariant identities define roots next := by
  have shape := CodegenInstance.tryNew_ok made
  have named : resolved.key = key := by rw [shape]
  have members (d : CodegenInstanceDependency K) : d ∈ resolved.dependencies ↔ d ∈ dependencies := by
    rw [shape]
    exact mem_dedup.trans (mem_insertionSort _)
  obtain ⟨waited, rfl⟩ := CodegenReachabilityBuilder.pushInstance_ok pushed
  have knows := knows_publish waited
  refine ⟨h.rooted, fun other hk => ?_, fun other hr => (knows other).mpr (.inl (h.started other hr)),
    fun other known found => ?_, h.leaf⟩
  · rcases (knows other).mp hk with hk | ⟨d, hd, rfl⟩
    · exact h.sound other hk
    · exact .dependency (h.sound key (.inr (.inl (named ▸ waited)))) defined ((members d).mp hd)
  · rw [CodegenReachabilityBuilder.get?_publish] at found
    split at found
    · next e =>
      obtain rfl := Option.some.inj found
      rw [e, named]
      exact ⟨mir, dependencies, defined, made, fun d hd =>
        (knows _).mpr (.inr ⟨d, (members d).mpr hd, rfl⟩)⟩
    · obtain ⟨mir, dependencies, defined, made, all⟩ := h.resolved other known found
      exact ⟨mir, dependencies, defined, made, fun d hd => (knows _).mpr (.inl (all d hd))⟩

theorem Invariant.pushExternal {key : K} (defined : define key = none)
    (pushed : builder.pushExternal key = .ok next) : Invariant identities define roots next := by
  obtain ⟨waited, _, rfl⟩ := CodegenReachabilityBuilder.pushExternal_ok pushed
  have knows (other : K) : Knows { builder with
    external := insert key builder.external, demanded := builder.demanded.erase key } other ↔
      Knows builder other := by
    simp only [Knows, Finset.mem_insert, Finset.mem_erase]
    by_cases e : other = key
    · simp [e, waited]
    · simp [e]
  refine ⟨h.rooted, fun other hk => h.sound other ((knows other).mp hk),
    fun other hr => (knows other).mpr (h.started other hr), fun other known found => ?_,
    fun other mem => ?_⟩
  · obtain ⟨mir, dependencies, defined, made, all⟩ := h.resolved other known found
    exact ⟨mir, dependencies, defined, made, fun d hd => (knows _).mpr (all d hd)⟩
  · rcases Finset.mem_insert.mp mem with rfl | mem
    · exact defined
    · exact h.leaf other mem

end

theorem Invariant.step {builder next : CodegenReachabilityBuilder K M}
    (h : Invariant identities define roots builder) (step : Step identities define builder next) :
    Invariant identities define roots next := by
  cases step with
  | takeFrontier => exact h.takeFrontier
  | pushInstance defined made pushed => exact h.pushInstance defined made pushed
  | pushExternal defined pushed => exact h.pushExternal defined pushed

theorem Invariant.run {builder next : CodegenReachabilityBuilder K M}
    (h : Invariant identities define roots builder)
    (run : Relation.ReflTransGen (Step identities define) builder next) :
    Invariant identities define roots next := by
  induction run with
  | refl => exact h
  | tail _ step ih => exact ih.step step

section

variable {start : CodegenReachabilityBuilder K M} (h : CodegenReachabilityBuilder.tryNew roots = .ok start)
include h

theorem CodegenReachabilityBuilder.tryNew_ok : start.roots = roots.toFinset ∧ start.external = ∅ ∧
      (∀ key, start.instances.get? key = none) ∧ ∀ key, Knows start key ↔ key ∈ roots := by
  unfold CodegenReachabilityBuilder.tryNew at h
  split at h
  · cases h
  · obtain rfl := Except.ok.inj h
    exact ⟨rfl, rfl, fun key => rfl, fun key => by
      simp [Knows, SortedMap.get?, SortedMap.entryOf, SortedMap.empty]⟩

theorem Invariant.tryNew : Invariant identities define roots start := by
  obtain ⟨rooted, external, empty, knows⟩ := CodegenReachabilityBuilder.tryNew_ok h
  refine ⟨rooted, fun key hk => .root ((knows key).mp hk), fun key hk => (knows key).mpr hk,
    fun key resolved found => ?_, fun key leaf => ?_⟩
  · rw [empty] at found
    cases found
  · rw [external] at leaf
    exact absurd leaf (Finset.notMem_empty key)

end

/-! ## 4. The graph that was built -/

/-- **What a graph holds**: the demanded keys with what they resolve to. -/
structure Closed (identities : Identities K T M U) (define : Definitions K M) (roots : List K)
  (graph : CodegenReachability K M) : Prop where
  rooted : graph.roots = roots.toFinset.sort (· ≤ ·)
  instances : ∀ resolved, resolved ∈ graph.instances ↔ ∃ key mir dependencies,
    Demanded define roots key ∧ define key = some (mir, dependencies) ∧
      CodegenInstance.tryNew identities key mir dependencies = .ok resolved
  external : ∀ key, key ∈ graph.external ↔ Demanded define roots key ∧ define key = none
  complete : ∀ key, Demanded define roots key →
    key ∈ graph.external ∨ ∃ resolved ∈ graph.instances, resolved.key = key
  ordered : graph.external.Pairwise (· < ·)

theorem CodegenReachabilityBuilder.finish_ok {builder : CodegenReachabilityBuilder K M}
    {graph : CodegenReachability K M} (h : builder.finish = .ok graph) :
    builder.pending = ∅ ∧ builder.demanded = ∅ ∧ graph.roots = builder.roots.sort (· ≤ ·) ∧
      graph.instances = builder.instances.entries.map Prod.snd ∧
      graph.external = builder.external.sort (· ≤ ·) := by
  unfold CodegenReachabilityBuilder.finish at h
  split at h
  · cases h
  · next complete =>
    rw [not_or, not_not, not_not] at complete
    obtain rfl := Except.ok.inj h
    exact ⟨complete.1, complete.2, rfl, rfl, rfl⟩

theorem Invariant.finish {builder : CodegenReachabilityBuilder K M}
    {graph : CodegenReachability K M} (h : Invariant identities define roots builder)
    (finished : builder.finish = .ok graph) : Closed identities define roots graph := by
  obtain ⟨pending, demanded, rooted, instances, external⟩ :=
    CodegenReachabilityBuilder.finish_ok finished
  have knows (key : K) : Knows builder key ↔ key ∈ builder.external ∨ (builder.instances.get? key).isSome := by
    simp [Knows, pending, demanded]
  have all (key : K) (hk : Demanded define roots key) : Knows builder key := by
    induction hk with
    | root hr => exact h.started _ hr
    | @dependency key mir dependencies d _ defined hd ih =>
      rcases (knows key).mp ih with leaf | found
      · rw [h.leaf key leaf] at defined
        cases defined
      · obtain ⟨resolved, found⟩ := Option.isSome_iff_exists.mp found
        obtain ⟨mir', dependencies', defined', _, known⟩ := h.resolved key resolved found
        obtain ⟨rfl, rfl⟩ := Prod.mk.inj (Option.some.inj (defined.symm.trans defined'))
        exact known d hd
  refine ⟨by rw [rooted, h.rooted], fun resolved => ?_, fun key => ?_, fun key hk => ?_, ?_⟩
  · rw [instances]
    constructor
    · intro mem
      obtain ⟨⟨key, resolved⟩, entry, rfl⟩ := mem_map.mp mem
      have found := SortedMap.get?_eq_some.mpr entry
      obtain ⟨mir, dependencies, defined, made, _⟩ := h.resolved key resolved found
      refine ⟨key, mir, dependencies, h.sound key ((knows key).mpr (.inr ?_)), defined, made⟩
      rw [found]
      rfl
    · rintro ⟨key, mir, dependencies, hk, defined, made⟩
      rcases (knows key).mp (all key hk) with leaf | found
      · rw [h.leaf key leaf] at defined
        cases defined
      · obtain ⟨resolved', found⟩ := Option.isSome_iff_exists.mp found
        obtain ⟨mir', dependencies', defined', made', _⟩ := h.resolved key resolved' found
        obtain ⟨rfl, rfl⟩ := Prod.mk.inj (Option.some.inj (defined.symm.trans defined'))
        obtain rfl := Except.ok.inj (made.symm.trans made')
        exact mem_map.mpr ⟨_, SortedMap.get?_eq_some.mp found, rfl⟩
  · rw [external, Finset.mem_sort]
    constructor
    · exact fun leaf => ⟨h.sound key ((knows key).mpr (.inl leaf)), h.leaf key leaf⟩
    · rintro ⟨hk, defined⟩
      rcases (knows key).mp (all key hk) with leaf | found
      · exact leaf
      · obtain ⟨resolved, found⟩ := Option.isSome_iff_exists.mp found
        obtain ⟨_, _, defined', _⟩ := h.resolved key resolved found
        rw [defined] at defined'
        cases defined'
  · rw [external, Finset.mem_sort, instances]
    refine ((knows key).mp (all key hk)).imp_right fun found => ?_
    obtain ⟨resolved, found⟩ := Option.isSome_iff_exists.mp found
    have entry := SortedMap.get?_eq_some.mp found
    exact ⟨resolved, mem_map.mpr ⟨_, entry, rfl⟩, builder.keyed _ entry⟩
  · rw [external]
    exact (Finset.sortedLT_sort builder.external).pairwise

omit [LinearOrder K] in
/-- Roots that retain others demand what the others do. -/
theorem Demanded.mono {before : List K} (retained : ∀ key ∈ before, Demanded define roots key)
    {key : K} (h : Demanded define before key) : Demanded define roots key := by
  induction h with
  | root hr => exact retained _ hr
  | dependency _ defined hd ih => exact ih.dependency defined hd

theorem CodegenReachabilityBuilder.tryExtend_ok {existing : CodegenReachability K M}
    {start : CodegenReachabilityBuilder K M} (h : CodegenReachabilityBuilder.tryExtend existing roots = .ok start) :
    start.roots = roots.toFinset ∧ (∀ key, key ∈ start.external ↔ key ∈ existing.external) ∧
      (∀ key resolved, start.instances.get? key = some resolved ↔
        resolved ∈ existing.instances ∧ resolved.key = key) ∧
      ∀ key, Knows start key ↔ key ∈ roots ∨ key ∈ existing.external ∨
        ∃ resolved ∈ existing.instances, resolved.key = key := by
  unfold CodegenReachabilityBuilder.tryExtend at h
  split at h
  · cases h
  · obtain rfl := Except.ok.inj h
    refine ⟨rfl, fun key => mem_toFinset, fun key resolved => CodegenReachability.get?_table, fun key => ?_⟩
    simp only [Knows, Option.isSome_iff_exists, CodegenReachability.get?_table, Finset.mem_filter,
      mem_toFinset, mem_map, Finset.notMem_empty, false_or]
    tauto

/-- A closed graph whose roots the new ones retain is a start. -/
theorem Invariant.tryExtend {before : List K} {existing : CodegenReachability K M}
    {start : CodegenReachabilityBuilder K M} (closed : Closed identities define before existing)
    (retained : ∀ key ∈ before, Demanded define roots key)
    (h : CodegenReachabilityBuilder.tryExtend existing roots = .ok start) :
    Invariant identities define roots start := by
  obtain ⟨rooted, external, found, knows⟩ := CodegenReachabilityBuilder.tryExtend_ok h
  have origin (resolved : CodegenInstance K M) (mem : resolved ∈ existing.instances) :
    ∃ mir dependencies, Demanded define before resolved.key ∧ define resolved.key = some (mir, dependencies) ∧
      CodegenInstance.tryNew identities resolved.key mir dependencies = .ok resolved := by
    obtain ⟨key, mir, dependencies, hk, defined, made⟩ := (closed.instances resolved).mp mem
    have named : resolved.key = key := by rw [CodegenInstance.tryNew_ok made]
    exact ⟨mir, dependencies, named ▸ hk, named ▸ defined, named ▸ made⟩
  refine ⟨rooted, fun key hk => ?_, fun key hr => (knows key).mpr (.inl hr),
    fun key resolved at_ => ?_, fun key leaf => ?_⟩
  · rcases (knows key).mp hk with hr | leaf | ⟨resolved, mem, rfl⟩
    · exact .root hr
    · exact ((closed.external key).mp leaf).1.mono retained
    · obtain ⟨_, _, hk, _⟩ := origin resolved mem
      exact hk.mono retained
  · obtain ⟨mem, rfl⟩ := (found key resolved).mp at_
    obtain ⟨mir, dependencies, hk, defined, made⟩ := origin resolved mem
    refine ⟨mir, dependencies, defined, made, fun d hd => (knows _).mpr (.inr ?_)⟩
    exact closed.complete _ (hk.dependency defined hd)
  · exact ((closed.external key).mp ((external key).mp leaf)).2

/-- **Every build is closed**, in whatever order it went. -/
theorem Built.closed {graph : CodegenReachability K M} (h : Built identities define roots graph) :
    Closed identities define roots graph := by
  induction h with
  | new started run finished => exact ((Invariant.tryNew started).run run).finish finished
  | extend _ retained started run finished ih =>
    exact ((Invariant.tryExtend ih retained started).run run).finish finished

/-- Definitions that differ in the order in which dependencies are named. -/
def Agree (define define' : Definitions K M) : Prop :=
  ∀ key, Option.Rel (fun found found' => found.1 = found'.1 ∧ ∀ d, d ∈ found.2 ↔ d ∈ found'.2)
    (define key) (define' key)

omit [LinearOrder K] in
theorem Agree.some {define' : Definitions K M} (h : Agree define define') {key : K} {mir : M}
    {dependencies : List (CodegenInstanceDependency K)} (defined : define key = some (mir, dependencies)) :
    ∃ dependencies', define' key = some (mir, dependencies') ∧ ∀ d, d ∈ dependencies ↔ d ∈ dependencies' := by
  have related := h key
  rw [defined] at related
  cases e : define' key with
  | none => rw [e] at related; cases related
  | some found =>
    rw [e] at related
    obtain ⟨rfl, same⟩ := Option.rel_some_some.mp related
    exact ⟨found.2, rfl, same⟩

omit [LinearOrder K] in
theorem Agree.none {define' : Definitions K M} (h : Agree define define') {key : K}
    (defined : define key = none) : define' key = none := by
  have related := h key
  rw [defined] at related
  cases e : define' key with
  | none => rfl
  | some found => rw [e] at related; cases related

omit [LinearOrder K] in
theorem Agree.symm {define' : Definitions K M} (h : Agree define define') : Agree define' define := by
  intro key
  have related := h key
  cases e : define key <;> cases e' : define' key <;> rw [e, e'] at related
  · exact .none
  · cases related
  · cases related
  · obtain ⟨same, members⟩ := Option.rel_some_some.mp related
    exact .some ⟨same.symm, fun d => (members d).symm⟩

omit [LinearOrder K] in
theorem Agree.demanded {define' : Definitions K M} {roots' : List K} (h : Agree define define')
    (same : ∀ key, key ∈ roots ↔ key ∈ roots') {key : K} (hk : Demanded define roots key) :
    Demanded define' roots' key := by
  induction hk with
  | root hr => exact .root ((same _).mp hr)
  | dependency _ defined hd ih =>
    obtain ⟨_, defined', members⟩ := h.some defined
    exact ih.dependency defined' ((members _).mp hd)

theorem Agree.instances {define' : Definitions K M} {roots' : List K}
    {graph graph' : CodegenReachability K M} (h : Agree define define')
    (same : ∀ key, key ∈ roots ↔ key ∈ roots') (closed : Closed identities define roots graph)
    (closed' : Closed identities define' roots' graph') {resolved : CodegenInstance K M}
    (mem : resolved ∈ graph.instances) : resolved ∈ graph'.instances := by
  obtain ⟨key, mir, dependencies, hk, defined, made⟩ := (closed.instances resolved).mp mem
  obtain ⟨dependencies', defined', members⟩ := h.some defined
  refine (closed'.instances resolved).mpr
    ⟨key, mir, dependencies', h.demanded same hk, defined', ?_⟩
  rw [← made, CodegenInstance.tryNew, CodegenInstance.tryNew, sortedUniqueSharedSlice_eq members]

/-- **One graph, whatever the order** of the roots, of the dependencies and of the calls. -/
theorem Built.unique {define' : Definitions K M} {roots' : List K}
    {graph graph' : CodegenReachability K M} (h : Built identities define roots graph)
    (h' : Built identities define' roots' graph') (agree : Agree define define')
    (same : ∀ key, key ∈ roots ↔ key ∈ roots') : graph = graph' := by
  have closed := h.closed
  have closed' := h'.closed
  refine CodegenReachability.ext' ?_ ?_ ?_
  · rw [closed.rooted, closed'.rooted]
    congr 1
    ext key
    rw [mem_toFinset, mem_toFinset, same]
  · have ascending := pairwise_map.mp graph.sorted
    have ascending' := pairwise_map.mp graph'.sorted
    have perm : graph.instances.Perm graph'.instances :=
      (perm_ext_iff_of_nodup (ascending.imp fun h e => (e ▸ h).false)
        (ascending'.imp fun h e => (e ▸ h).false)).mpr fun resolved =>
          ⟨agree.instances same closed closed', agree.symm.instances (fun key => (same key).symm) closed' closed⟩
    exact perm.eq_of_pairwise (fun _ _ _ _ h h' => absurd (h.trans h') (lt_irrefl _)) ascending
      ascending'
  · have perm : graph.external.Perm graph'.external := by
      refine (perm_ext_iff_of_nodup (closed.ordered.imp ne_of_lt)
        (closed'.ordered.imp ne_of_lt)).mpr fun key => ?_
      rw [closed.external, closed'.external]
      exact ⟨fun h => ⟨agree.demanded same h.1, agree.none h.2⟩,
        fun h => ⟨agree.symm.demanded (fun key => (same key).symm) h.1, agree.symm.none h.2⟩⟩
    exact perm.eq_of_pairwise (fun _ _ _ _ h h' => absurd (h.trans h') (lt_irrefl _)) closed.ordered
      closed'.ordered

end Build

end Bray.Partition
