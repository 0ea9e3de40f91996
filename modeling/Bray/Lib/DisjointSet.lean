/-
  File:      Bray/Lib/DisjointSet.lean
  Subject:   DISJOINT SETS as a forest of parents: a search for the root that shortens its path, and
    a union that puts one root below another by rank. Nothing of this repository is named
    here.

  The parents are a function on the naturals, and its roots are what its iterates end in:

  * redirecting a member to its own root changes no root (`RootIn.redirect`), and putting a root
    below another changes the roots of its tree only (`RootOf.link`);
  * a path to a root is shorter than the set is large (`RootOf.short`), so a search of that length
    finds it, and shortening the path takes no more steps (`compress_enough`);
  * **`root_unionAll`** -- after a run of unions two members have one root exactly when the pairs
    joined generate it.
-/
import Mathlib.Data.Finset.Card
import Mathlib.Data.Nat.Find

namespace Bray.Lib

open Function


/-! ## 1. The roots of a function -/

/-- The root is reached in so many steps. -/
def RootIn (p : Nat → Nat) (steps x root : Nat) : Prop := p^[steps] x = root ∧ p root = root

def RootOf (p : Nat → Nat) (x root : Nat) : Prop := ∃ steps, RootIn p steps x root

section Roots

variable {p : Nat → Nat} {x root : Nat}

theorem RootIn.add {steps : Nat} (h : RootIn p steps x root) (more : Nat) : p^[more + steps] x = root := by
  rw [iterate_add_apply, h.1, iterate_fixed h.2]

theorem RootOf.unique {root' : Nat} (h : RootOf p x root) (h' : RootOf p x root') : root = root' := by
  obtain ⟨steps, h⟩ := h
  obtain ⟨steps', h'⟩ := h'
  rw [← h.add steps', ← h'.add steps, Nat.add_comm]

theorem RootOf.self (fixed : p x = x) : RootOf p x x := ⟨0, rfl, fixed⟩

/-- A member that is redirected to its root shortens the paths and changes no root. -/
theorem RootIn.redirect {steps member top : Nat} (h : RootIn p steps x root)
    (path : RootOf p member top) (below : p member ≠ member) :
    ∃ fewer ≤ steps, RootIn (Function.update p member top) fewer x root := by
  have stays (r : Nat) (fixed : p r = r) : Function.update p member top r = r := by
    have apart : r ≠ member := fun e => below (by rw [← e, fixed])
    rw [update_of_ne apart, fixed]
  induction steps generalizing x with
  | zero => exact ⟨0, le_rfl, h.1, stays root h.2⟩
  | succ steps ih =>
    by_cases e : x = member
    · subst e
      obtain rfl : top = root := path.unique ⟨steps + 1, h⟩
      refine ⟨1, by omega, ?_, stays top h.2⟩
      rw [iterate_one, update_self]
    · obtain ⟨fewer, le, first, last⟩ := ih (x := p x) ⟨h.1, h.2⟩
      refine ⟨fewer + 1, by omega, ?_, last⟩
      rw [iterate_succ_apply, update_of_ne e, first]

/-- A root that is put below another takes its tree there. -/
theorem RootOf.link {lower upper : Nat} (h : RootOf p x root) (single : p lower = lower)
    (fixed : p upper = upper) (apart : lower ≠ upper) :
    RootOf (Function.update p lower upper) x (if root = lower then upper else root) := by
  have top : Function.update p lower upper upper = upper := by
    rw [update_of_ne apart.symm, fixed]
  obtain ⟨steps, h⟩ := h
  induction steps generalizing x with
  | zero =>
    obtain rfl : x = root := h.1
    split
    · next e => exact ⟨1, by rw [iterate_one, e, update_self], top⟩
    · next e => exact RootOf.self (by rw [update_of_ne e, h.2])
  | succ steps ih =>
    obtain ⟨more, first, last⟩ := ih (x := p x) ⟨h.1, h.2⟩
    by_cases e : x = lower
    · rw [e, single, ← e] at first
      exact ⟨more, e ▸ first, last⟩
    · refine ⟨more + 1, ?_, last⟩
      rw [iterate_succ_apply, update_of_ne e, first]

/-- **A path to a root is shorter than the set is large.** -/
theorem RootOf.short {size : Nat} (bounded : ∀ x < size, p x < size) (hx : x < size)
    (h : RootOf p x root) : ∃ steps < size, RootIn p steps x root := by
  obtain ⟨steps, h⟩ := h
  have found : ∃ k, p (p^[k] x) = p^[k] x := ⟨steps, by rw [h.1, h.2]⟩
  have least : p^[Nat.find found] x = root :=
    RootOf.unique ⟨_, rfl, Nat.find_spec found⟩ ⟨steps, h⟩
  refine ⟨Nat.find found, ?_, least, h.2⟩
  -- a longer path meets a member twice, and from there its root is found earlier
  by_contra long
  have inside (k : Nat) : p^[k] x < size := by
    induction k with
    | zero => exact hx
    | succ k ih => exact iterate_succ_apply' p k x ▸ bounded _ ih
  have crowded : (Finset.range size).card < (Finset.range (size + 1)).card := by simp
  obtain ⟨a, ha, b, hb, apart, same⟩ := Finset.exists_ne_map_eq_of_card_lt_of_maps_to crowded
    fun k _ => Finset.mem_range.mpr (inside k)
  rw [Finset.mem_range] at ha hb
  have early {a b : Nat} (lt : a < b) (hb : b < size + 1) (same : p^[a] x = p^[b] x) : False := by
    have meets : p^[Nat.find found - b + a] x = p^[Nat.find found] x := by
      rw [iterate_add_apply, same, ← iterate_add_apply]
      congr 2
      omega
    refine Nat.find_min found (m := Nat.find found - b + a) (by omega) ?_
    rw [meets]
    exact Nat.find_spec found
  rcases Nat.lt_or_gt_of_ne apart with lt | lt
  · exact early lt hb same
  · exact early lt ha same.symm

end Roots

/-! ## 2. The forest -/

/-- A set of numbers in disjoint classes: the parent of every member, a root being its own, and
  how deep the tree of a root may be. -/
structure DisjointSet where
  parents : List Nat
  ranks : List Nat

namespace DisjointSet

def new (length : Nat) : DisjointSet := ⟨List.range length, List.replicate length 0⟩

def parent (set : DisjointSet) (member : Nat) : Nat := set.parents.getD member member

def rank (set : DisjointSet) (member : Nat) : Nat := set.ranks.getD member 0

/-- The climb to the root. -/
def rootFrom (set : DisjointSet) : Nat → Nat → Nat
  | 0, root => root
  | fuel + 1, root => if set.parent root = root then root else set.rootFrom fuel (set.parent root)

/-- The member gets another parent. -/
def put (set : DisjointSet) (member parent : Nat) : DisjointSet :=
  { set with parents := set.parents.set member parent }

/-- The members on the path are put right below the root. -/
def compress (root : Nat) : Nat → Nat → DisjointSet → DisjointSet
  | 0, _, set => set
  | fuel + 1, member, set =>
    if set.parent member = member then set
    else compress root fuel (set.parent member) (set.put member root)

def root (set : DisjointSet) (member : Nat) : Nat := set.rootFrom set.parents.length member

def find (set : DisjointSet) (member : Nat) : DisjointSet × Nat :=
  (compress (set.root member) set.parents.length member set, set.root member)

/-- One root is put below another, whose rank grows where both had the same. Ranks are bytes and
  stop at the last. -/
def attach (set : DisjointSet) (upper lower : Nat) : DisjointSet :=
  { set.put lower upper with
    ranks :=
      if set.rank upper = set.rank lower then set.ranks.set upper (min (set.rank upper + 1) 255)
      else set.ranks }

/-- The root of lesser rank goes below the other. -/
def link (set : DisjointSet) (left right : Nat) : DisjointSet :=
  if set.rank left < set.rank right then set.attach right left else set.attach left right

def union (set : DisjointSet) (left right : Nat) : DisjointSet :=
  let (set, left) := set.find left
  let (set, right) := set.find right
  if left = right then set else set.link left right

def unionAll (set : DisjointSet) (pairs : List (Nat × Nat)) : DisjointSet :=
  pairs.foldl (fun set pair => set.union pair.1 pair.2) set

/-- **The invariant**: parents are members, and every path ends in a root. -/
structure Forest (set : DisjointSet) : Prop where
  bounded : ∀ x < set.parents.length, set.parent x < set.parents.length
  rooted : ∀ x, ∃ root, RootOf set.parent x root

variable {set : DisjointSet}

@[simp] theorem length_put (member top : Nat) : (set.put member top).parents.length = set.parents.length :=
  List.length_set

variable {member x top : Nat}

theorem parent_put (hm : member < set.parents.length) (top : Nat) :
    (set.put member top).parent = Function.update set.parent member top := by
  funext x
  simp only [parent, put, List.getD_eq_getElem?_getD, update_apply]
  by_cases e : x = member
  · simp [e, hm]
  · simp [e, List.getElem?_set_ne (Ne.symm e)]

theorem parent_outside (hx : set.parents.length ≤ x) : set.parent x = x := by
  simp [parent, List.getD_eq_getElem?_getD, hx]

theorem inside_of_parent (hx : set.parent x ≠ x) : x < set.parents.length := by
  by_contra outside
  exact hx (parent_outside (Nat.le_of_not_lt outside))

theorem rootFrom_of_rootIn {steps fuel : Nat} (h : RootIn set.parent steps x top)
    (enough : steps ≤ fuel) : set.rootFrom fuel x = top := by
  induction steps generalizing fuel x with
  | zero =>
    obtain rfl : x = top := h.1
    cases fuel with
    | zero => rfl
    | succ fuel => simp [rootFrom, h.2]
  | succ steps ih =>
    obtain ⟨fuel, rfl⟩ : ∃ k, fuel = k + 1 := ⟨fuel - 1, by omega⟩
    rw [rootFrom]
    split
    · next fixed => exact RootOf.unique (RootOf.self fixed) ⟨_, h⟩
    · exact ih ⟨h.1, h.2⟩ (by omega)

section

variable (h : Forest set)
include h

/-- The climb finds the root. -/
theorem Forest.root (x : Nat) : RootOf set.parent x (set.root x) := by
  obtain ⟨top, path⟩ := h.rooted x
  by_cases hx : x < set.parents.length
  · obtain ⟨steps, short, found⟩ := path.short h.bounded hx
    rw [DisjointSet.root, rootFrom_of_rootIn found (by omega)]
    exact path
  · have fixed := parent_outside (Nat.le_of_not_lt hx)
    rw [DisjointSet.root, rootFrom_of_rootIn ⟨rfl, fixed⟩ (Nat.zero_le _)]
    exact RootOf.self fixed

theorem Forest.root_eq (path : RootOf set.parent x top) : set.root x = top :=
  (h.root x).unique path

theorem Forest.inside (hx : x < set.parents.length) : set.root x < set.parents.length := by
  obtain ⟨steps, last, _⟩ := h.root x
  rw [← last]
  clear last
  induction steps with
  | zero => exact hx
  | succ steps ih => exact iterate_succ_apply' set.parent steps x ▸ h.bounded _ ih

/-! ### One change of a parent -/

theorem Forest.redirect (path : RootOf set.parent member top) (below : set.parent member ≠ member) :
    Forest (set.put member top) ∧ (set.put member top).root = set.root := by
  have hm := inside_of_parent below
  have same (x : Nat) : RootOf (set.put member top).parent x (set.root x) := by
    obtain ⟨steps, found⟩ := h.root x
    obtain ⟨fewer, _, found⟩ := found.redirect path below
    exact ⟨fewer, parent_put hm top ▸ found⟩
  have forest : Forest (set.put member top) := by
    refine ⟨fun x hx => ?_, fun x => ⟨_, same x⟩⟩
    rw [length_put] at hx ⊢
    rw [parent_put hm, update_apply]
    split
    · exact h.root_eq path ▸ h.inside hm
    · exact h.bounded x hx
  exact ⟨forest, funext fun x => forest.root_eq (same x)⟩

/-- **Shortening a path changes no root.** -/
theorem Forest.compress (fuel : Nat) (path : RootOf set.parent member top) :
    Forest (compress top fuel member set) ∧ (compress top fuel member set).root = set.root ∧
      (compress top fuel member set).parents.length = set.parents.length := by
  induction fuel generalizing member set with
  | zero => exact ⟨h, rfl, rfl⟩
  | succ fuel ih =>
    rw [DisjointSet.compress]
    split
    · exact ⟨h, rfl, rfl⟩
    · next below =>
      obtain ⟨forest, roots⟩ := h.redirect path below
      have up : set.root (set.parent member) = top := by
        obtain ⟨steps, first, last⟩ := path
        cases steps with
        | zero =>
          obtain rfl : member = top := first
          exact absurd last below
        | succ steps => exact h.root_eq ⟨steps, first, last⟩
      have path' := forest.root (set.parent member)
      rw [roots, up] at path'
      obtain ⟨forest, roots', length⟩ := ih forest path'
      exact ⟨forest, roots'.trans roots, by rw [length, length_put]⟩

theorem Forest.find (member : Nat) : Forest (set.find member).1 ∧ (set.find member).1.root = set.root ∧
      (set.find member).1.parents.length = set.parents.length :=
  h.compress set.parents.length (h.root member)

/-- **A root put below another takes its tree there.** -/
theorem Forest.put {lower upper : Nat} (hl : lower < set.parents.length)
    (hu : upper < set.parents.length) (single : set.parent lower = lower)
    (fixed : set.parent upper = upper) (apart : lower ≠ upper) : Forest (set.put lower upper) ∧
      ∀ x, (set.put lower upper).root x = if set.root x = lower then upper else set.root x := by
  have moved (x : Nat) : RootOf (set.put lower upper).parent x
    (if set.root x = lower then upper else set.root x) :=
    parent_put hl upper ▸ (h.root x).link single fixed apart
  have forest : Forest (set.put lower upper) := by
    refine ⟨fun x hx => ?_, fun x => ⟨_, moved x⟩⟩
    rw [length_put] at hx ⊢
    rw [parent_put hl, update_apply]
    split
    · exact hu
    · exact h.bounded x hx
  exact ⟨forest, fun x => forest.root_eq (moved x)⟩

end

/-- The ranks say nothing of the roots. -/
theorem root_ranks (set : DisjointSet) (ranks : List Nat) :
    (⟨set.parents, ranks⟩ : DisjointSet).root = set.root := by
  have climb (fuel x : Nat) :
    (⟨set.parents, ranks⟩ : DisjointSet).rootFrom fuel x = set.rootFrom fuel x := by
    induction fuel generalizing x with
    | zero => rfl
    | succ fuel ih => rw [rootFrom, rootFrom, ih]; rfl
  exact funext fun x => climb set.parents.length x

theorem Forest.link (h : Forest set) {left right : Nat} (hl : left < set.parents.length)
    (hr : right < set.parents.length) (fixedLeft : set.parent left = left)
    (fixedRight : set.parent right = right) (apart : left ≠ right) :
    Forest (set.link left right) ∧ (set.link left right).parents.length = set.parents.length ∧
      ∀ x y, (set.link left right).root x = (set.link left right).root y ↔
        set.root x = set.root y ∨ set.root x = left ∧ set.root y = right ∨
          set.root x = right ∧ set.root y = left := by
  have either : ∃ lower upper ranks, set.link left right = ⟨(set.put lower upper).parents, ranks⟩ ∧
    (lower = left ∧ upper = right ∨ lower = right ∧ upper = left) := by
    unfold DisjointSet.link
    split
    · exact ⟨left, right, _, rfl, .inl ⟨rfl, rfl⟩⟩
    · exact ⟨right, left, _, rfl, .inr ⟨rfl, rfl⟩⟩
  obtain ⟨lower, upper, ranks, e, sides⟩ := either
  have put : Forest (set.put lower upper) ∧
    ∀ x, (set.put lower upper).root x = if set.root x = lower then upper else set.root x := by
    rcases sides with ⟨rfl, rfl⟩ | ⟨rfl, rfl⟩
    · exact h.put hl hr fixedLeft fixedRight apart
    · exact h.put hr hl fixedRight fixedLeft apart.symm
  obtain ⟨forest, roots⟩ := put
  refine ⟨e ▸ ⟨forest.bounded, forest.rooted⟩, by rw [e]; exact length_put .., fun x y => ?_⟩
  rw [e, root_ranks, roots, roots]
  rcases sides with ⟨rfl, rfl⟩ | ⟨rfl, rfl⟩
  · split <;> split <;> grind
  · split <;> split <;> grind

theorem Forest.fixed (h : Forest set) (x : Nat) : set.parent (set.root x) = set.root x := by
  obtain ⟨_, _, fixed⟩ := h.root x
  exact fixed

/-- **A union joins two classes and no others.** -/
theorem Forest.union (h : Forest set) {left right : Nat} (hl : left < set.parents.length)
    (hr : right < set.parents.length) :
    Forest (set.union left right) ∧ (set.union left right).parents.length = set.parents.length ∧
      ∀ x y, (set.union left right).root x = (set.union left right).root y ↔
        set.root x = set.root y ∨ set.root x = set.root left ∧ set.root y = set.root right ∨
          set.root x = set.root right ∧ set.root y = set.root left := by
  obtain ⟨first, roots, length⟩ := h.find left
  obtain ⟨second, roots', length'⟩ := first.find right
  have same : ((set.find left).1.find right).1.root = set.root := roots'.trans roots
  have lengths := length'.trans length
  have up : ((set.find left).1.find right).2 = set.root right := by
    show (set.find left).1.root right = _
    rw [roots]
  unfold DisjointSet.union
  dsimp only
  rw [show (set.find left).2 = set.root left from rfl, up]
  split
  · next e =>
    refine ⟨second, lengths, fun x y => ?_⟩
    rw [same]
    grind
  · next apart =>
    have fixed (x : Nat) : ((set.find left).1.find right).1.parent (set.root x) = set.root x := by
      rw [← same]
      exact second.fixed x
    obtain ⟨forest, length, joined⟩ := second.link (lengths ▸ h.inside hl) (lengths ▸ h.inside hr)
      (fixed left) (fixed right) apart
    refine ⟨forest, length.trans lengths, fun x y => ?_⟩
    rw [joined, same]

theorem forest_new (length : Nat) : Forest (new length) ∧ (new length).root = id := by
  have alone (x : Nat) : (new length).parent x = x := by
    simp only [parent, new, List.getD_eq_getElem?_getD]
    by_cases hx : x < length
    · simp [hx]
    · simp [hx]
  have forest : Forest (new length) :=
    ⟨fun x hx => (alone x).symm ▸ hx, fun x => ⟨x, RootOf.self (alone x)⟩⟩
  exact ⟨forest, funext fun x => forest.root_eq (RootOf.self (alone x))⟩

/-- **After the unions two members have one root exactly when the joined pairs generate it.** -/
theorem root_unionAll {length : Nat} (pairs : List (Nat × Nat))
    (inside : ∀ pair ∈ pairs, pair.1 < length ∧ pair.2 < length) : Forest ((new length).unionAll pairs) ∧
      ((new length).unionAll pairs).parents.length = length ∧
      ∀ x y, ((new length).unionAll pairs).root x = ((new length).unionAll pairs).root y ↔
        Relation.EqvGen (fun a b => (a, b) ∈ pairs) x y := by
  induction pairs using List.reverseRecOn with
  | nil =>
    obtain ⟨forest, roots⟩ := forest_new length
    refine ⟨forest, by simp [unionAll, new], fun x y => ?_⟩
    show (new length).root x = (new length).root y ↔ _
    rw [roots]
    constructor
    · rintro rfl
      exact .refl _
    · intro h
      induction h with
      | rel _ _ h => exact absurd h List.not_mem_nil
      | refl _ => rfl
      | symm _ _ _ ih => exact ih.symm
      | trans _ _ _ _ _ ih ih' => exact ih.trans ih'
  | append_singleton pairs pair ih =>
    obtain ⟨forest, size, roots⟩ := ih fun p hp => inside p (List.mem_append_left _ hp)
    obtain ⟨hl, hr⟩ := inside pair (by simp)
    rw [show (new length).unionAll (pairs ++ [pair]) =
      ((new length).unionAll pairs).union pair.1 pair.2 by simp [unionAll]]
    obtain ⟨forest, size', joined⟩ := forest.union (size ▸ hl) (size ▸ hr)
    refine ⟨forest, size'.trans size, fun x y => ?_⟩
    have more {x y : Nat} (h : Relation.EqvGen (fun a b => (a, b) ∈ pairs) x y) :
      Relation.EqvGen (fun a b => (a, b) ∈ pairs ++ [pair]) x y :=
      h.mono fun a b hab => List.mem_append_left _ hab
    have last : Relation.EqvGen (fun a b => (a, b) ∈ pairs ++ [pair]) pair.1 pair.2 :=
      .rel _ _ (by simp)
    constructor
    · intro h
      rcases (joined x y).mp h with h | ⟨h, h'⟩ | ⟨h, h'⟩
      · exact more ((roots x y).mp h)
      · exact (more ((roots _ _).mp h)).trans _ _ _ (last.trans _ _ _ (more ((roots _ _).mp h'.symm)))
      · exact (more ((roots _ _).mp h)).trans _ _ _
          ((last.symm _ _).trans _ _ _ (more ((roots _ _).mp h'.symm)))
    · intro h
      induction h with
      | rel a b hab =>
        rcases List.mem_append.mp hab with hab | hab
        · exact (joined a b).mpr (.inl ((roots a b).mpr (.rel _ _ hab)))
        · obtain rfl : (a, b) = pair := by simpa using hab
          exact (joined a b).mpr (.inr (.inl ⟨rfl, rfl⟩))
      | refl _ => rfl
      | symm _ _ _ ih => exact ih.symm
      | trans _ _ _ _ _ ih ih' => exact ih.trans ih'

end DisjointSet

end Bray.Lib
