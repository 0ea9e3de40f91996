/-
  File:      Bray/Partition/Groups.lean
  Subject:   THE INDIVISIBLE GROUPS of a partition (unit/partition.rs): the definitions that a
    dependency, or a cycle of dependencies, keeps together.

  The groups come from a disjoint set over the positions of the instances, fed by the dependencies
  that allow no unit boundary and by the strongly connected components of all dependencies. What the
  partition is for is said without either:

  * `Depends`, `Together` -- one instance names another; two instances cannot be parted;
  * **`mem_group_iff`** -- the groups part the instances, and two instances are in one group exactly
    when pairs that cannot be parted lead from one to the other.
-/
import Bray.Lib.Components
import Bray.Lib.DisjointSet
import Bray.Partition.Graph

namespace Bray.Partition

open Bray.Lib

/-! ## 1. The policy and the classes of the definitions -/

def u64Max : Nat := 2 ^ 64 - 1

def saturatingAdd (left right : Nat) : Nat := min (left + right) u64Max

/-- The 32 bytes of a digest, compared byte by byte. -/
structure Digest where
  bytes : List (Fin 256)
  size : bytes.length = 32

theorem Digest.bytes_injective : Function.Injective Digest.bytes := by
  rintro ⟨bytes, _⟩ ⟨_, _⟩ rfl
  rfl

instance : LinearOrder Digest := LinearOrder.lift' Digest.bytes Digest.bytes_injective

def Digest.zero : Digest := ⟨List.replicate 32 0, rfl⟩

structure CodegenPartitionPolicy where
  identity : Nat
  revision : Nat
  costModelRevision : Nat
  lowerBound : Nat
  targetWork : Nat
  upperBound : Nat
  positive : 0 < lowerBound
  ascending : lowerBound ≤ targetWork ∧ targetWork ≤ upperBound

def CodegenPartitionPolicy.nativeLibraryPublication : CodegenPartitionPolicy :=
  ⟨2, 4, 1, 64, 128, 256, by decide, by decide⟩

inductive CodegenDefinitionVisibility where
  | unit
  | product
  | visible
  deriving DecidableEq

inductive CodegenLinkage where
  | confined
  | internal
  | external
  | weak
  | fallback
  | linkOnce
  | common
  | imported
  | exported
  deriving DecidableEq

structure CodegenPartitionCompatibility where
  linkage : CodegenLinkage
  visibility : CodegenDefinitionVisibility
  nativeSelectionBoundary : Bool
  nativeStorageDependenciesIdentity : Digest

variable {K T M U R : Type} [LinearOrder K]

/-- An instance with the class its caller gave it. -/
abbrev Classified (K M : Type) := CodegenInstance K M × CodegenPartitionCompatibility

/-! ## 2. The groups -/

/-- The position of an instance key. -/
def indexOf (classified : List (Classified K M)) (key : K) : Option Nat :=
  classified.findIdx? fun entry => entry.1.key = key

/-- The positions of the dependencies that are instances, with their kinds. -/
def targets (classified : List (Classified K M)) (source : Nat) :
  List (CodegenInstanceDependencyKind × Nat) :=
  match classified[source]? with
  | none => []
  | some entry => entry.1.dependencies.filterMap fun dependency =>
    (indexOf classified dependency.instanceKey).map fun target => (dependency.kind, target)

def edges (classified : List (Classified K M)) (source : Nat) : List Nat :=
  (targets classified source).map Prod.snd

def unitVisible (classified : List (Classified K M)) (target : Nat) : Bool :=
  match classified[target]? with
  | none => false
  | some entry => entry.2.visibility = .unit

/-- A private definition cannot be resolved by an external declaration, and a frame awaited directly
  is part of the one that awaits it. -/
def required (classified : List (Classified K M)) (source : Nat) : List (Nat × Nat) :=
  ((targets classified source).filter fun target =>
    target.1 = .directAwaitedFrame ∨ unitVisible classified target.2).map fun target =>
      (source, target.2)

def componentPairs : List Nat → List (Nat × Nat)
  | [] => []
  | first :: rest => rest.map fun member => (first, member)

def components (classified : List (Classified K M)) : List (List Nat) :=
  stronglyConnectedComponents (edges classified)
    (walkWork (edges classified) (Finset.range classified.length) + 1)
    (List.range classified.length)

/-- The pairs that are joined, in order. -/
def joined (classified : List (Classified K M)) : List (Nat × Nat) :=
  (List.range classified.length).flatMap (required classified) ++ (components classified).flatMap componentPairs

/-- One position is put into the group of its root. -/
def gather (state : DisjointSet × SortedMap (compare : Nat → Nat → Ordering) (List Nat))
  (index : Nat) : DisjointSet × SortedMap (compare : Nat → Nat → Ordering) (List Nat) :=
  let (set, root) := state.1.find index
  (set, state.2.insert root ((state.2.get? root).getD [] ++ [index]))

/-- **The groups** by their root, each with its members in order. -/
def requiredGroups (classified : List (Classified K M)) : List (List Nat) :=
  let set := (DisjointSet.new classified.length).unionAll (joined classified)
  ((List.range classified.length).foldl gather (set, .empty _ _)).2.entries.map Prod.snd

/-! ## 3. What cannot be parted -/

/-- One instance of the graph names another. -/
def Depends (instances : List (CodegenInstance K M)) (x y : CodegenInstance K M) : Prop :=
  x ∈ instances ∧ y ∈ instances ∧ ∃ dependency ∈ x.dependencies, dependency.instanceKey = y.key

/-- **Two instances cannot be parted**: one awaits the other directly or names what only its own unit
  sees, or they name each other in a cycle. -/
def Together (compatibility : CodegenInstance K M → Option CodegenPartitionCompatibility)
  (instances : List (CodegenInstance K M)) (x y : CodegenInstance K M) : Prop :=
  x ∈ instances ∧ y ∈ instances ∧ ((∃ dependency ∈ x.dependencies, dependency.instanceKey = y.key ∧
      (dependency.kind = .directAwaitedFrame ∨ ∃ known, compatibility y = some known ∧ known.visibility = .unit)) ∨
      Relation.ReflTransGen (Depends instances) x y ∧ Relation.ReflTransGen (Depends instances) y x)

abbrev instancesOf (classified : List (Classified K M)) : List (CodegenInstance K M) :=
  classified.map Prod.fst

/-- The keys are different. -/
def Keyed (classified : List (Classified K M)) : Prop :=
  (classified.map fun entry => entry.1.key).Nodup

variable {classified : List (Classified K M)}
  {compatibility : CodegenInstance K M → Option CodegenPartitionCompatibility}

theorem indexOf_eq_some (keyed : Keyed classified) {key : K} {index : Nat} :
    indexOf classified key = some index ↔ ∃ entry, classified[index]? = some entry ∧ entry.1.key = key := by
  unfold indexOf
  rw [List.findIdx?_eq_some_iff_getElem]
  constructor
  · rintro ⟨inside, found, _⟩
    exact ⟨classified[index], List.getElem?_eq_getElem inside, by simpa using found⟩
  · rintro ⟨entry, at_, rfl⟩
    obtain ⟨inside, rfl⟩ := List.getElem_of_getElem? at_
    refine ⟨inside, by simp, fun j hj => ?_⟩
    have apart := List.nodup_iff_injective_get.mp keyed
    intro same
    have := @apart ⟨j, by simp; omega⟩ ⟨index, by simpa using inside⟩ (by simpa using same)
    simp at this
    omega

omit [LinearOrder K] in
variable {x y : Classified K M}

theorem entry_unique (keyed : Keyed classified) (hx : x ∈ classified)
    (hy : y ∈ classified) (same : x.1.key = y.1.key) : x = y :=
  List.inj_on_of_nodup_map keyed hx hy same

/-- A position leads to another exactly when the instance there names the other. -/
theorem mem_targets (keyed : Keyed classified) {source target : Nat} {kind : CodegenInstanceDependencyKind}
    (at_ : classified[source]? = some x) : (kind, target) ∈ targets classified source ↔
      ∃ y, classified[target]? = some y ∧ ∃ dependency ∈ x.1.dependencies,
        dependency.instanceKey = y.1.key ∧ dependency.kind = kind := by
  unfold targets
  simp only [at_, List.mem_filterMap, Option.map_eq_some_iff, indexOf_eq_some keyed]
  constructor
  · rintro ⟨dependency, mem, index, ⟨y, found, named⟩, e⟩
    obtain ⟨rfl, rfl⟩ := Prod.mk.inj e
    exact ⟨y, found, dependency, mem, named.symm, rfl⟩
  · rintro ⟨y, found, dependency, mem, named, rfl⟩
    exact ⟨dependency, mem, target, ⟨y, found, named.symm⟩, rfl⟩

/-! ## 4. The members of a root -/

/-- The positions below `length` with the root, if there are any. -/
def membersOf (root : Nat → Nat) (length top : Nat) : Option (List Nat) :=
  match (List.range length).filter fun index => root index = top with
  | [] => none
  | members => some members

theorem membersOf_eq_some {root : Nat → Nat} {length top : Nat} {members : List Nat} :
    membersOf root length top = some members ↔
      members ≠ [] ∧ members = (List.range length).filter fun index => root index = top := by
  unfold membersOf
  split
  · next e => simp +contextual [e]
  · next found =>
    rw [Option.some.injEq]
    constructor
    · rintro rfl
      exact ⟨found, rfl⟩
    · exact fun h => h.2.symm

theorem gathered {set : DisjointSet} (forest : set.Forest) (length : Nat) :
    ((List.range length).foldl gather (set, .empty _ _)).1.Forest ∧
      ((List.range length).foldl gather (set, .empty _ _)).1.root = set.root ∧
      ∀ top, ((List.range length).foldl gather (set, .empty _ _)).2.get? top = membersOf set.root length top := by
  induction length with
  | zero => exact ⟨forest, rfl, fun top => rfl⟩
  | succ length ih =>
    obtain ⟨kept, roots, groups⟩ := ih
    rw [List.range_succ, List.foldl_append, List.foldl_cons, List.foldl_nil]
    generalize (List.range length).foldl gather (set, .empty _ _) = state at kept roots groups
    obtain ⟨kept', roots', _⟩ := kept.find length
    refine ⟨kept', roots'.trans roots, fun top => ?_⟩
    have own : (state.1.find length).2 = set.root length := congrFun roots length
    show (state.2.insert (state.1.find length).2
      ((state.2.get? (state.1.find length).2).getD [] ++ [length])).get? top = _
    rw [own, SortedMap.get?_insert, groups, groups]
    unfold membersOf
    rw [List.range_succ, List.filter_append]
    by_cases e : top = set.root length
    · rw [if_pos e, e]
      simp only [decide_true, List.filter_cons_of_pos, List.filter_nil]
      generalize (List.range length).filter _ = members
      cases members <;> rfl
    · rw [if_neg e]
      simp [Ne.symm e]

/-! ## 5. What is joined -/

variable {i j : Nat}

/-- One instance has one position. -/
theorem getElem_inj (keyed : Keyed classified)
    (hi : classified[i]? = some x) (hj : classified[j]? = some y) (same : x.1 = y.1) : i = j := by
  have hi := (indexOf_eq_some keyed).mpr ⟨x, hi, rfl⟩
  have hj := (indexOf_eq_some keyed).mpr ⟨y, hj, congrArg CodegenInstance.key same.symm⟩
  exact Option.some.inj (hi.symm.trans hj)

omit [LinearOrder K] in
theorem mem_instancesOf (at_ : classified[i]? = some x) : x.1 ∈ instancesOf classified :=
  List.mem_map_of_mem (List.mem_of_getElem? at_)

omit [LinearOrder K] in
theorem at_of_mem {x : CodegenInstance K M} (hx : x ∈ instancesOf classified) :
    ∃ (i : Nat) (entry : Classified K M), classified[i]? = some entry ∧ entry.1 = x := by
  obtain ⟨entry, mem, rfl⟩ := List.mem_map.mp hx
  obtain ⟨i, hi⟩ := List.mem_iff_getElem?.mp mem
  exact ⟨i, entry, hi, rfl⟩

theorem mem_edges (keyed : Keyed classified) : j ∈ edges classified i ↔
    ∃ x y, classified[i]? = some x ∧ classified[j]? = some y ∧ Depends (instancesOf classified) x.1 y.1 := by
  constructor
  · intro mem
    obtain ⟨⟨kind, target⟩, named, rfl⟩ := List.mem_map.mp mem
    cases at_ : classified[i]? with
    | none => simp [targets, at_] at named
    | some x =>
      obtain ⟨y, found, dependency, hd, named, _⟩ := (mem_targets keyed at_).mp named
      exact ⟨x, y, rfl, found, mem_instancesOf at_, mem_instancesOf found, dependency, hd, named⟩
  · rintro ⟨x, y, at_, found, _, _, dependency, hd, named⟩
    exact List.mem_map.mpr ⟨(dependency.kind, j),
      (mem_targets keyed at_).mpr ⟨y, found, dependency, hd, named, rfl⟩, rfl⟩

/-- Positions reach each other as their instances do. -/
theorem reaches_iff (keyed : Keyed classified)
    (hi : classified[i]? = some x) (hj : classified[j]? = some y) : Reaches (edges classified) i j ↔
      Relation.ReflTransGen (Depends (instancesOf classified)) x.1 y.1 := by
  constructor
  · intro path
    induction path generalizing y with
    | refl =>
      obtain rfl := Option.some.inj (hi.symm.trans hj)
      exact .refl
    | tail _ edge ih =>
      obtain ⟨u, v, hu, hv, depends⟩ := (mem_edges keyed).mp edge
      obtain rfl := Option.some.inj (hv.symm.trans hj)
      exact (ih hu).tail depends
  · intro path
    generalize target : y.1 = named at path
    induction path generalizing j y with
    | refl =>
      obtain rfl := getElem_inj keyed hi hj target.symm
      exact .refl
    | @tail u v _ depends ih =>
      obtain ⟨k, entry, hk, rfl⟩ := at_of_mem depends.1
      subst target
      exact (ih hk rfl).tail ((mem_edges keyed).mpr ⟨entry, y, hk, hj, depends⟩)

theorem edges_inside (keyed : Keyed classified) (h : j ∈ edges classified i) : j < classified.length := by
  obtain ⟨_, y, _, found, _⟩ := (mem_edges keyed).mp h
  exact (List.getElem_of_getElem? found).1

/-- The components are the classes of instances that name each other in a cycle. -/
theorem components_spec (keyed : Keyed classified) :
    (∀ i, i < classified.length → ∃ component ∈ components classified, i ∈ component) ∧
      ∀ component ∈ components classified, ∀ i ∈ component, i < classified.length ∧ ∀ j, j ∈ component ↔
        Reaches (edges classified) i j ∧ Reaches (edges classified) j i := by
  have closed : ∀ x ∈ Finset.range classified.length, ∀ y ∈ edges classified x,
    y ∈ Finset.range classified.length := fun x _ y hy =>
    Finset.mem_range.mpr (edges_inside keyed hy)
  have whole : ∀ x, x ∈ List.range classified.length ↔ x ∈ Finset.range classified.length := by
    simp
  obtain ⟨_, all, exact⟩ := mem_component_iff closed (Nat.lt_succ_self _) whole
  refine ⟨fun i hi => ?_, fun component hc i hi => ⟨?_, exact component hc i hi⟩⟩
  · obtain ⟨component, hc, hi⟩ := List.mem_flatten.mp ((all i).mpr (List.mem_range.mpr hi))
    exact ⟨component, hc, hi⟩
  · exact List.mem_range.mp ((all i).mp (List.mem_flatten.mpr ⟨component, hc, hi⟩))

theorem mem_componentPairs {component : List Nat}
    (h : (i, j) ∈ componentPairs component) : i ∈ component ∧ j ∈ component := by
  cases component with
  | nil => exact absurd h List.not_mem_nil
  | cons first rest =>
    obtain ⟨member, hm, e⟩ := List.mem_map.mp h
    obtain ⟨rfl, rfl⟩ := Prod.mk.inj e
    exact ⟨List.mem_cons_self, List.mem_cons_of_mem _ hm⟩

theorem mem_required (keyed : Keyed classified) {k : Nat} :
    (i, j) ∈ required classified k ↔ i = k ∧ ∃ x y, classified[i]? = some x ∧
      classified[j]? = some y ∧ ∃ dependency ∈ x.1.dependencies, dependency.instanceKey = y.1.key ∧
        (dependency.kind = .directAwaitedFrame ∨ y.2.visibility = .unit) := by
  constructor
  · intro mem
    obtain ⟨⟨kind, target⟩, kept, e⟩ := List.mem_map.mp mem
    obtain ⟨rfl, rfl⟩ := Prod.mk.inj e
    obtain ⟨named, keeps⟩ := List.mem_filter.mp kept
    cases at_ : classified[k]? with
    | none => simp [targets, at_] at named
    | some x =>
      obtain ⟨y, found, dependency, hd, key, rfl⟩ := (mem_targets keyed at_).mp named
      refine ⟨rfl, x, y, rfl, found, dependency, hd, key, ?_⟩
      simpa [unitVisible, found] using keeps
  · rintro ⟨rfl, x, y, at_, found, dependency, hd, named, keeps⟩
    refine List.mem_map.mpr ⟨(dependency.kind, j), List.mem_filter.mpr
      ⟨(mem_targets keyed at_).mpr ⟨y, found, dependency, hd, named, rfl⟩, ?_⟩, rfl⟩
    simpa [unitVisible, found] using keeps

section Classes

variable (classes : ∀ entry ∈ classified, compatibility entry.1 = some entry.2)
include classes

/-- **Every joined pair is a pair that cannot be parted.** -/
theorem together_of_joined (keyed : Keyed classified) {i j : Nat}
    (h : (i, j) ∈ joined classified) : ∃ x y, classified[i]? = some x ∧ classified[j]? = some y ∧
      Together compatibility (instancesOf classified) x.1 y.1 := by
  rcases List.mem_append.mp h with h | h
  · obtain ⟨k, _, h⟩ := List.mem_flatMap.mp h
    obtain ⟨rfl, x, y, hi, hj, d, hd, named, keeps⟩ := (mem_required keyed).mp h
    have known := classes y (List.mem_of_getElem? hj)
    exact ⟨x, y, hi, hj, mem_instancesOf hi, mem_instancesOf hj, .inl ⟨d, hd, named,
      keeps.imp_right fun visible => ⟨y.2, known, visible⟩⟩⟩
  · obtain ⟨component, hc, h⟩ := List.mem_flatMap.mp h
    obtain ⟨hi, hj⟩ := mem_componentPairs h
    obtain ⟨inside, exact⟩ := (components_spec keyed).2 component hc i hi
    obtain ⟨inside', _⟩ := (components_spec keyed).2 component hc j hj
    have hi := List.getElem?_eq_getElem inside
    have hj' := List.getElem?_eq_getElem inside'
    obtain ⟨there, back⟩ := (exact j).mp hj
    exact ⟨_, _, hi, hj', mem_instancesOf hi, mem_instancesOf hj',
      .inr ⟨(reaches_iff keyed hi hj').mp there, (reaches_iff keyed hj' hi).mp back⟩⟩

section

variable {i j : Nat} {x y : Classified K M}
variable (keyed : Keyed classified) (hi : classified[i]? = some x) (hj : classified[j]? = some y)
include keyed hi hj

/-- **Pairs that cannot be parted are generated by what is joined.** -/
theorem joined_of_together (h : Together compatibility (instancesOf classified) x.1 y.1) :
    Relation.EqvGen (fun a b => (a, b) ∈ joined classified) i j := by
  have inside := (List.getElem_of_getElem? hi).1
  obtain ⟨_, _, ⟨d, hd, named, keeps⟩ | ⟨there, back⟩⟩ := h
  · refine .rel _ _ (List.mem_append_left _ (List.mem_flatMap.mpr ⟨i, List.mem_range.mpr inside, ?_⟩))
    refine (mem_required keyed).mpr ⟨rfl, x, y, hi, hj, d, hd, named, keeps.imp_right ?_⟩
    rintro ⟨known, e, visible⟩
    obtain rfl := Option.some.inj ((classes y (List.mem_of_getElem? hj)).symm.trans e)
    exact visible
  · obtain ⟨all, exact⟩ := components_spec keyed
    obtain ⟨component, hc, hci⟩ := all i inside
    have hcj : j ∈ component := ((exact component hc i hci).2 j).mpr
      ⟨(reaches_iff keyed hi hj).mpr there, (reaches_iff keyed hj hi).mpr back⟩
    have first (k : Nat) (hk : k ∈ component) :
      ∃ top, component.head? = some top ∧ Relation.EqvGen (fun a b => (a, b) ∈ joined classified) top k := by
      cases component with
      | nil => exact absurd hk List.not_mem_nil
      | cons top rest =>
        refine ⟨top, rfl, ?_⟩
        rcases List.mem_cons.mp hk with rfl | hk
        · exact .refl _
        · refine .rel _ _ (List.mem_append_right _ (List.mem_flatMap.mpr ⟨_, hc, ?_⟩))
          exact List.mem_map.mpr ⟨k, hk, rfl⟩
    obtain ⟨top, head, toI⟩ := first i hci
    obtain ⟨top', head', toJ⟩ := first j hcj
    obtain rfl := Option.some.inj (head.symm.trans head')
    exact (toI.symm _ _).trans _ _ _ toJ

/-- Positions are joined as their instances are kept together. -/
theorem joined_iff : Relation.EqvGen (fun a b => (a, b) ∈ joined classified) i j ↔
      Relation.EqvGen (Together compatibility (instancesOf classified)) x.1 y.1 := by
  constructor
  · intro h
    have along : (i < classified.length ↔ j < classified.length) ∧ ∀ x y, classified[i]? = some x →
      classified[j]? = some y →
      Relation.EqvGen (Together compatibility (instancesOf classified)) x.1 y.1 := by
      clear hi hj
      induction h with
      | rel i j h =>
        obtain ⟨u, v, hu, hv, together⟩ := together_of_joined classes keyed h
        refine ⟨⟨fun _ => (List.getElem_of_getElem? hv).1,
          fun _ => (List.getElem_of_getElem? hu).1⟩, fun x y hx hy => ?_⟩
        obtain rfl := Option.some.inj (hx.symm.trans hu)
        obtain rfl := Option.some.inj (hy.symm.trans hv)
        exact .rel _ _ together
      | refl i =>
        refine ⟨Iff.rfl, fun x y hx hy => ?_⟩
        obtain rfl := Option.some.inj (hx.symm.trans hy)
        exact .refl _
      | symm _ _ _ ih => exact ⟨ih.1.symm, fun x y hx hy => (ih.2 y x hy hx).symm _ _⟩
      | trans i k j _ _ ih ih' =>
        refine ⟨ih.1.trans ih'.1, fun x y hx hy => ?_⟩
        have middle := ih.1.mp (List.getElem_of_getElem? hx).1
        have hm := List.getElem?_eq_getElem middle
        exact (ih.2 _ _ hx hm).trans _ _ _ (ih'.2 _ _ hm hy)
    exact along.2 x y hi hj
  · intro h
    have along (u v : CodegenInstance K M)
      (h : Relation.EqvGen (Together compatibility (instancesOf classified)) u v) :
      (u ∈ instancesOf classified ↔ v ∈ instancesOf classified) ∧
        ∀ i j x y, classified[i]? = some x → classified[j]? = some y → x.1 = u → y.1 = v →
          Relation.EqvGen (fun a b => (a, b) ∈ joined classified) i j := by
      induction h with
      | rel u v h =>
        refine ⟨⟨fun _ => h.2.1, fun _ => h.1⟩, ?_⟩
        rintro i j x y hi hj rfl rfl
        exact joined_of_together classes keyed hi hj h
      | refl u =>
        refine ⟨Iff.rfl, fun i j x y hi hj e e' => ?_⟩
        obtain rfl := getElem_inj keyed hi hj (e.trans e'.symm)
        exact .refl _
      | symm _ _ _ ih =>
        exact ⟨ih.1.symm, fun i j x y hi hj e e' => (ih.2 j i y x hj hi e' e).symm _ _⟩
      | trans u w v _ _ ih ih' =>
        refine ⟨ih.1.trans ih'.1, fun i j x y hi hj e e' => ?_⟩
        obtain ⟨k, entry, hk, e''⟩ := at_of_mem (ih.1.mp (e ▸ mem_instancesOf hi))
        exact (ih.2 i k x entry hi hk e e'').trans _ _ _ (ih'.2 k j entry y hk hj e'' e')
    exact (along x.1 y.1 h).2 i j x y hi hj rfl rfl

end

/-! ## 6. The groups part the instances -/

theorem joined_inside (keyed : Keyed classified) :
    ∀ pair ∈ joined classified, pair.1 < classified.length ∧ pair.2 < classified.length := by
  rintro ⟨i, j⟩ h
  obtain ⟨x, y, hi, hj, _⟩ := together_of_joined classes keyed h
  exact ⟨(List.getElem_of_getElem? hi).1, (List.getElem_of_getElem? hj).1⟩

omit classes in
/-- The root of a position. -/
def rootOf (classified : List (Classified K M)) (index : Nat) : Nat :=
  ((DisjointSet.new classified.length).unionAll (joined classified)).root index

theorem mem_requiredGroups (keyed : Keyed classified) {group : List Nat} : group ∈ requiredGroups classified ↔
      ∃ top, membersOf (rootOf classified) classified.length top = some group := by
  obtain ⟨forest, _, _⟩ := DisjointSet.root_unionAll (joined classified) (joined_inside classes keyed)
  obtain ⟨_, _, groups⟩ := gathered forest classified.length
  unfold requiredGroups
  rw [List.mem_map]
  constructor
  · rintro ⟨⟨top, group⟩, mem, rfl⟩
    exact ⟨top, (groups top).symm.trans (SortedMap.get?_eq_some.mpr mem)⟩
  · rintro ⟨top, found⟩
    exact ⟨(top, group), SortedMap.get?_eq_some.mp ((groups top).trans found), rfl⟩

/-- **Two positions are in one group exactly when what cannot be parted leads from one to the
  other.** -/
theorem mem_group_iff (keyed : Keyed classified) {group : List Nat}
    (h : group ∈ requiredGroups classified) : group ≠ [] ∧ (∀ i ∈ group, i < classified.length) ∧
      ∀ i ∈ group, ∀ j, j ∈ group ↔ j < classified.length ∧
        Relation.EqvGen (fun a b => (a, b) ∈ joined classified) i j := by
  obtain ⟨_, _, roots⟩ := DisjointSet.root_unionAll (joined classified) (joined_inside classes keyed)
  obtain ⟨top, found⟩ := (mem_requiredGroups classes keyed).mp h
  obtain ⟨nonempty, rfl⟩ := membersOf_eq_some.mp found
  refine ⟨nonempty, fun i hi => List.mem_range.mp (List.mem_of_mem_filter hi), fun i hi j => ?_⟩
  have own : rootOf classified i = top := by simpa using (List.mem_filter.mp hi).2
  rw [List.mem_filter, List.mem_range, decide_eq_true_eq, ← own]
  exact and_congr_right fun _ => eq_comm.trans (roots i j)

/-- **The groups part the positions.** -/
theorem requiredGroups_perm (keyed : Keyed classified) :
    (requiredGroups classified).flatten.Perm (List.range classified.length) := by
  obtain ⟨forest, _, _⟩ := DisjointSet.root_unionAll (joined classified) (joined_inside classes keyed)
  obtain ⟨_, _, groups⟩ := gathered forest classified.length
  refine (List.perm_ext_iff_of_nodup ?_ List.nodup_range).mpr fun i => ?_
  · unfold requiredGroups
    dsimp only
    generalize ((List.range classified.length).foldl gather _).2 = map at groups
    have own {entry : Nat × List Nat} (mem : entry ∈ map.entries) :
      entry.2 = (List.range classified.length).filter fun index =>
        rootOf classified index = entry.1 :=
      (membersOf_eq_some.mp ((groups entry.1).symm.trans (SortedMap.get?_eq_some.mpr mem))).2
    refine List.nodup_flatten.mpr ⟨fun members hm => ?_, List.pairwise_map.mpr ?_⟩
    · obtain ⟨entry, mem, rfl⟩ := List.mem_map.mp hm
      rw [own mem]
      exact List.nodup_range.filter _
    · refine List.Pairwise.imp_of_mem (fun {a b} ha hb less => ?_) map.sorted
      rw [List.disjoint_left, own ha, own hb]
      intro i hi hi'
      have hi : rootOf classified i = a.1 := by simpa using (List.mem_filter.mp hi).2
      have hi' : rootOf classified i = b.1 := by simpa using (List.mem_filter.mp hi').2
      exact absurd (compare_lt_iff_lt.mp less) (by omega)
  · rw [List.mem_flatten, List.mem_range]
    constructor
    · rintro ⟨group, hg, hi⟩
      exact (mem_group_iff classes keyed hg).2.1 i hi
    · intro hi
      have mem : i ∈ (List.range classified.length).filter fun index =>
        rootOf classified index = rootOf classified i := by simp [hi]
      exact ⟨_, (mem_requiredGroups classes keyed).mpr ⟨rootOf classified i,
        membersOf_eq_some.mpr ⟨List.ne_nil_of_mem mem, rfl⟩⟩, mem⟩

end Classes

end Bray.Partition
