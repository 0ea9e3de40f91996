/-
  File:      Bray/Collection/Represent.lean
  Subject:   THE INVARIANT OF THE ORDERED TREE and the operations on its storage.

  `Represents tree t free`: the links spell the balanced tree `t`, the occupied slots are those of `t`,
  the free list runs through all other slots. Construction, reallocation, insertion, removal and
  clearing are stated on it; no operation panics.
-/
import Bray.Collection.Links

namespace Bray.Collection

open Bray.Lib List Path

variable {Item : Type}

/-! ## 1. The free list -/

def Chain (nodes : Nodes) : Option Nat → List Nat → Prop
  | head, [] => head = none
  | head, i :: rest => head = some i ∧ ∃ n, nodes[i]? = some n ∧ Chain nodes n.nextFree rest

theorem Chain.frame {nodes nodes' : Nodes} {head : Option Nat} {free : List Nat}
    (h : Chain nodes head free) (heq : ∀ i ∈ free, nodes'[i]? = nodes[i]?) : Chain nodes' head free := by
  induction free generalizing head with
  | nil => exact h
  | cons i rest ih =>
    obtain ⟨hi, n, hn, hrest⟩ := h
    refine ⟨hi, n, (heq i (.head _)).trans hn, ih hrest fun j hj => ?_⟩
    exact heq j (.tail _ hj)

/-- A slot goes to the front of the free list. -/
theorem Chain.push {nodes : Nodes} {head : Option Nat} {free : List Nat} {i : Nat}
    (h : Chain nodes head free) (hi : i < nodes.length) (hnew : i ∉ free)
    (g : OrderedTreeNode → OrderedTreeNode) (hg : ∀ n, (g n).nextFree = head) :
    nodes.assign i g = .ok (nodes.modify i g) ∧ Chain (nodes.modify i g) (some i) (i :: free) := by
  have hget : nodes[i]? = some (nodes[i]) := getElem?_eq_getElem hi
  refine ⟨Nodes.assign_eq hget g, rfl, _, Nodes.getElem?_modify_self hget g, ?_⟩
  rw [hg]
  refine h.frame fun j hj => (outside_modify nodes i g).2 j ?_
  rw [mem_singleton]
  rintro rfl
  exact hnew hj

namespace OrderedTree

/-- **The free list is rebuilt**: every slot without an item is on it, the others are untouched. -/
theorem rebuildFreeLoop_eq {items : List (Option Item)} {k : Nat} {nodes : Nodes}
    {head : Option Nat} {free : List Nat} (hlen : items.length = nodes.length) (hk : k ≤ nodes.length)
    (hchain : Chain nodes head free) (hnodup : free.Nodup) (hfree : ∀ i ∈ free, k ≤ i) :
    ∃ nodes' head' free', rebuildFreeLoop items k nodes head = .ok (nodes', head') ∧
      Chain nodes' head' free' ∧ free'.Nodup ∧ (∀ i, i ∈ free' ↔ i ∈ free ∨ i < k ∧ items[i]? = some none) ∧
      nodes'.length = nodes.length ∧ ∀ i : Nat, items[i]? ≠ some none → nodes'[i]? = nodes[i]? := by
  induction k generalizing nodes head free with
  | zero => exact ⟨nodes, head, free, rfl, hchain, hnodup, by simp, rfl, fun _ _ => rfl⟩
  | succ k ih =>
    have hk' : k < items.length := by omega
    rw [rebuildFreeLoop, Slot.isPresent, getElem?_eq_getElem hk', ok_bind]
    cases hslot : items[k] with
    | some x =>
      obtain ⟨n, h, fs, e, hc, hn, hm, hl, hsame⟩ := ih hlen (by omega) hchain hnodup
        fun i hi => by have := hfree i hi; omega
      refine ⟨n, h, fs, e, hc, hn, fun i => ?_, hl, hsame⟩
      grind
    | none =>
      have hks : items[k]? = some none := by rw [getElem?_eq_getElem hk', hslot]
      have hnew : k ∉ free := fun hin => by
        have := hfree k hin
        omega
      obtain ⟨hassign, hpush⟩ := hchain.push (i := k) (by omega) hnew
        (fun n => { n with nextFree := head }) fun _ => rfl
      have ho := outside_modify nodes k fun n => { n with nextFree := head }
      obtain ⟨n, h, fs, e, hc, hn, hm, hl, hsame⟩ := ih (hlen.trans ho.1.symm)
        (by rw [ho.1]; omega) hpush (nodup_cons.mpr ⟨hnew, hnodup⟩)
        fun i hi => by
          rcases mem_cons.mp hi with rfl | hi
          · exact Nat.le_refl _
          · exact Nat.le_of_succ_le (hfree i hi)
      refine ⟨n, h, fs, ?_, hc, hn, fun i => ?_, hl.trans ho.1, fun i hi => ?_⟩
      · rw [hassign, ok_bind]
        exact e
      · grind
      · rw [hsame i hi]
        refine ho.2 i ?_
        rw [mem_singleton]
        rintro rfl
        exact hi hks

theorem rebuildFree_eq (tree : OrderedTree Item) (hlen : tree.items.length = tree.nodes.length) :
    ∃ nodes head free, tree.rebuildFree = .ok { tree with nodes := nodes, free := head } ∧
      Chain nodes head free ∧ free.Nodup ∧ (∀ i, i ∈ free ↔ tree.items[i]? = some none) ∧
      nodes.length = tree.nodes.length ∧
      ∀ i : Nat, tree.items[i]? ≠ some none → nodes[i]? = tree.nodes[i]? := by
  obtain ⟨n, h, fs, e, hc, hn, hm, hl, hsame⟩ := @rebuildFreeLoop_eq _ _ _ tree.nodes none [] hlen (Nat.le_refl _) rfl nodup_nil
    fun _ hi => nomatch hi
  refine ⟨n, h, fs, ?_, hc, hn, fun i => ?_, hl, hsame⟩
  · rw [rebuildFree, e]
    rfl
  · rw [hm]
    constructor
    · rintro (hi | hi)
      · cases hi
      · exact hi.2
    · intro hi
      have := (List.getElem_of_getElem? hi).1
      exact .inr ⟨by omega, hi⟩

end OrderedTree

/-! ## 2. The invariant -/

/-- **The ordered tree is the balanced tree `t` of its occupied slots**, and its free list is `free`. -/
structure Represents (tree : OrderedTree Item) (t : AvlTree Nat) (free : List Nat) : Prop where
  linked : Linked tree.nodes none t
  root_eq : tree.root = link t
  nodup : t.inorder.Nodup
  balanced : t.Balanced
  length_eq : tree.items.length = tree.nodes.length
  occupied_iff : ∀ i, i ∈ t.inorder ↔ ∃ x, tree.items[i]? = some (some x)
  count_eq : tree.count = t.inorder.length
  chain : Chain tree.nodes tree.free free
  free_nodup : free.Nodup
  free_iff : ∀ i, i ∈ free ↔ tree.items[i]? = some none

namespace Represents

variable {tree : OrderedTree Item} {t : AvlTree Nat} {free : List Nat} {i : Nat}

section

variable (h : Represents tree t free)
include h

theorem lt (hi : i ∈ t.inorder) : i < tree.nodes.length :=
  h.linked.lt i hi

theorem not_free (hi : i ∈ t.inorder) : i ∉ free := by
  intro hf
  obtain ⟨x, hx⟩ := (h.occupied_iff i).mp hi
  rw [(h.free_iff i).mp hf] at hx
  cases hx

/-- There are no more items than slots. -/
theorem count_le : tree.count ≤ tree.capacity := by
  rw [h.count_eq]
  exact length_le_of_lt h.nodup fun i hi => h.lt hi

/-- Every slot is occupied or on the free list. -/
theorem length_add : tree.count + free.length = tree.capacity := by
  have hperm : (t.inorder ++ free).Perm (List.range tree.capacity) := by
    refine (perm_ext_iff_of_nodup ?_ nodup_range).mpr fun i => ?_
    · exact nodup_append.mpr ⟨h.nodup, h.free_nodup, fun i hi j hj hij =>
        h.not_free hi (hij ▸ hj)⟩
    · rw [mem_append, mem_range, h.occupied_iff, h.free_iff, OrderedTree.capacity, ← h.length_eq]
      constructor
      · rintro (⟨x, hx⟩ | hx)
        · exact (List.getElem_of_getElem? hx).1
        · exact (List.getElem_of_getElem? hx).1
      · intro hi
        rw [getElem?_eq_getElem hi]
        cases tree.items[i] with
        | none => exact .inr rfl
        | some x => exact .inl ⟨x, rfl⟩
  have hlen := hperm.length_eq
  rw [length_append, length_range] at hlen
  rw [h.count_eq, hlen]

/-- **The count is the number of occupied slots.** -/
theorem count_eq_countP : tree.count = tree.items.countP Option.isSome := by
  have hsub : tree.items = (List.range tree.items.length).map fun i => tree.items[i]?.join := by
    refine ext_getElem (by simp) fun i hi _ => ?_
    simp [getElem?_eq_getElem hi]
  have hperm : ((List.range tree.items.length).filter fun i => (tree.items[i]?.join).isSome).Perm
      t.inorder := by
    refine (perm_ext_iff_of_nodup (nodup_range.filter _) h.nodup).mpr fun i => ?_
    rw [mem_filter, mem_range, h.occupied_iff]
    constructor
    · rintro ⟨hi, hsome⟩
      rw [getElem?_eq_getElem hi] at hsome ⊢
      obtain ⟨x, hx⟩ := Option.isSome_iff_exists.mp hsome
      exact ⟨x, congrArg some hx⟩
    · rintro ⟨x, hx⟩
      refine ⟨(List.getElem_of_getElem? hx).1, ?_⟩
      rw [hx]
      rfl
  rw [hsub, countP_map, countP_eq_length_filter, h.count_eq, ← hperm.length_eq]
  rfl

end

/-- Items may change where there are some. -/
theorem withItems (h : Represents tree t free) {items : List (Option Item)}
    (hlen : items.length = tree.items.length)
    (hocc : ∀ i : Nat, (∃ x, items[i]? = some (some x)) ↔ ∃ x, tree.items[i]? = some (some x)) :
    Represents { tree with items := items } t free := by
  refine ⟨h.linked, h.root_eq, h.nodup, h.balanced, hlen.trans h.length_eq, fun i => ?_, h.count_eq,
    h.chain, h.free_nodup, fun i => ?_⟩
  · exact (h.occupied_iff i).trans (hocc i).symm
  · rw [h.free_iff]
    have hi := hocc i
    rcases Nat.lt_or_ge i items.length with hlt | hge
    · rw [getElem?_eq_getElem hlt, getElem?_eq_getElem (hlen ▸ hlt)] at hi ⊢
      cases h₁ : tree.items[i] <;> cases h₂ : items[i] <;> simp_all
    · rw [getElem?_eq_none hge, getElem?_eq_none (hlen ▸ hge)]

end Represents

/-- The items at some indices. -/
def contents (items : List (Option Item)) (is : List Nat) : List Item :=
  is.filterMap fun i => items[i]?.join

theorem contents_append (items : List (Option Item)) (is js : List Nat) :
    contents items (is ++ js) = contents items is ++ contents items js :=
  filterMap_append

theorem contents_cons {items : List (Option Item)} {i : Nat} {x : Item} (is : List Nat)
    (h : items[i]? = some (some x)) : contents items (i :: is) = x :: contents items is := by
  rw [contents, filterMap_cons, h]
  rfl

theorem contents_congr {items items' : List (Option Item)} {is : List Nat}
    (h : ∀ i ∈ is, items'[i]? = items[i]?) : contents items' is = contents items is :=
  filterMap_congr fun i hi => congrArg Option.join (h i hi)

/-! ## 3. Storage -/

/-- The capacity after room for more items is asked for. -/
def grow (target : Target) (count capacity additional : Nat) : Except MemoryLayoutError Nat :=
  if additional ≤ capacity - count then .ok capacity
  else do
    let new ← growthCapacity target.usizeMax count capacity additional
    rawBuffer target.first new
    rawBuffer target.second new
    .ok new

namespace OrderedTree

theorem construct_eq (target : Target) (capacity : Nat) :
    (∃ e, (do rawBuffer target.first capacity; rawBuffer target.second capacity) = .error e ∧
      construct target capacity = .ok (.error e : Except _ (OrderedTree Item))) ∨
    ∃ tree free, (do rawBuffer target.first capacity; rawBuffer target.second capacity) = .ok () ∧
      construct target capacity = .ok (.ok tree : Except _ (OrderedTree Item)) ∧
      Represents tree .leaf free ∧ tree.capacity = capacity := by
  rw [construct, buffers]
  cases hfirst : rawBuffer target.first capacity with
  | error e => exact .inl ⟨e, rfl, rfl⟩
  | ok u =>
    cases hsecond : rawBuffer target.second capacity with
    | error e => exact .inl ⟨e, rfl, rfl⟩
    | ok v =>
      refine .inr ?_
      obtain ⟨n, h, fs, e, hc, hn, hm, hl, -⟩ := rebuildFree_eq
        (⟨List.replicate capacity .empty, List.replicate capacity none, none, none, 0⟩ :
          OrderedTree Item) (by simp)
      refine ⟨⟨n, List.replicate capacity none, none, h, 0⟩, fs, rfl, ?_, ?_, hl.trans length_replicate⟩
      · simp only [ok_bind]
        rw [e]
        rfl
      · refine ⟨trivial, rfl, nodup_nil, trivial, ?_, fun i => ?_, rfl, hc, hn, hm⟩
        · simp [hl]
        · constructor
          · intro hi
            cases hi
          · rintro ⟨x, hx⟩
            have := (List.getElem_of_getElem? hx).2
            simp at this

/-- **The occupied slots are moved**, each to the slot of the same index. -/
theorem moveLoop_eq {sourceNodes nodes : Nodes} {source items : List (Option Item)} {k remaining : Nat}
    (hsource : source.length = sourceNodes.length) (hk : k + remaining = sourceNodes.length)
    (hitems : items.length = nodes.length) (hcap : sourceNodes.length ≤ nodes.length) :
    ∃ nodes' items', moveLoop sourceNodes k remaining source nodes items = .ok (nodes', items') ∧
      nodes'.length = nodes.length ∧ items'.length = items.length ∧
      (∀ (i : Nat) (x : Item), k ≤ i → source[i]? = some (some x) →
        items'[i]? = some (some x) ∧ nodes'[i]? = sourceNodes[i]?) ∧
      ∀ i : Nat, (k ≤ i → ∀ x, source[i]? ≠ some (some x)) → items'[i]? = items[i]? ∧ nodes'[i]? = nodes[i]? := by
  induction remaining generalizing k source nodes items with
  | zero =>
    refine ⟨nodes, items, rfl, rfl, rfl, fun i x hi hx => ?_, fun _ _ => ⟨rfl, rfl⟩⟩
    have := (List.getElem_of_getElem? hx).1
    omega
  | succ remaining ih =>
    have hk' : k < source.length := by omega
    have hkn : k < sourceNodes.length := by omega
    rw [moveLoop, Nodes.node_eq (getElem?_eq_getElem hkn), ok_bind, Slot.isPresent,
      getElem?_eq_getElem hk', ok_bind]
    cases hslot : source[k] with
    | none =>
      have hks : source[k]? = some none := by rw [getElem?_eq_getElem hk', hslot]
      obtain ⟨n, is, e, hln, hli, hmoved, hkept⟩ := ih (k := k + 1) hsource (by omega) hitems hcap
      refine ⟨n, is, e, hln, hli, fun i x hi hx => ?_, fun i hi => ?_⟩
      · rcases Nat.lt_or_eq_of_le hi with hi | rfl
        · exact hmoved i x hi hx
        · rw [hks] at hx
          cases hx
      · exact hkept i fun hi' => hi (by omega)
    | some y =>
      have hks : source[k]? = some (some y) := by rw [getElem?_eq_getElem hk', hslot]
      obtain ⟨n, is, e, hln, hli, hmoved, hkept⟩ := @ih (nodes.set k sourceNodes[k])
        (source.set k none) (items.set k (some y)) (k + 1) (by simpa using hsource)
        (by omega) (by simpa using hitems) (by simpa using hcap)
      refine ⟨n, is, ?_, by simpa using hln, by simpa using hli, fun i x hi hx => ?_, fun i hi => ?_⟩
      · simp only [Option.isSome_some, if_true]
        rw [Slot.take_eq hks, ok_bind]
        rw [if_pos ⟨by omega, by omega⟩]
        exact e
      · rcases Nat.lt_or_eq_of_le hi with hi | rfl
        · exact hmoved i x hi (by rw [getElem?_set_ne (by omega)]; exact hx)
        · rw [hks] at hx
          obtain ⟨rfl⟩ := hx
          obtain ⟨h₁, h₂⟩ := hkept k fun h => absurd h (by omega)
          rw [h₁, h₂, getElem?_set_self (by omega), getElem?_set_self (by omega),
            getElem?_eq_getElem hkn]
          exact ⟨rfl, rfl⟩
      · have hne : k ≠ i := by
          rintro rfl
          exact hi (Nat.le_refl _) y hks
        obtain ⟨h₁, h₂⟩ := hkept i fun hi' x => by
          rw [getElem?_set_ne hne]
          exact hi (by omega) x
        rw [h₁, h₂, getElem?_set_ne hne, getElem?_set_ne hne]
        exact ⟨rfl, rfl⟩

variable {tree : OrderedTree Item} {t : AvlTree Nat} {free : List Nat}

/-- **A larger storage holds the same tree**: every index keeps its item, the free list is rebuilt. -/
theorem reallocate_eq {target : Target}
    {capacity : Nat} (h : Represents tree t free) (hcap : tree.capacity ≤ capacity)
    (hlayout : (do rawBuffer target.first capacity; rawBuffer target.second capacity) = .ok ()) :
    ∃ tree' free', tree.reallocate target capacity = .ok (tree', .ok ()) ∧
      Represents tree' t free' ∧ tree'.capacity = capacity ∧ tree'.count = tree.count ∧
      ∀ i ∈ t.inorder, tree'.items[i]? = tree.items[i]? := by
  have hbuffers : buffers target capacity =
      .ok (List.replicate capacity .empty, List.replicate capacity (none : Option Item)) := by
    rw [buffers]
    cases hfirst : rawBuffer target.first capacity with
    | error e => rw [hfirst] at hlayout; cases hlayout
    | ok u =>
      rw [hfirst, ok_bind] at hlayout
      rw [ok_bind, hlayout, ok_bind]
  obtain ⟨n, is, e, hln, hli, hmoved, hkept⟩ := @moveLoop_eq _ tree.nodes
    (List.replicate capacity .empty) tree.items (List.replicate capacity none) 0 tree.capacity h.length_eq
    (Nat.zero_add _) (by simp) (by rw [length_replicate]; exact hcap)
  rw [length_replicate] at hln hli
  obtain ⟨n', head, fs, e', hc, hn, hm, hl, hsame⟩ := rebuildFree_eq
    { tree with nodes := n, items := is } (hli.trans hln.symm)
  have hitems : ∀ i ∈ t.inorder, is[i]? = tree.items[i]? ∧ n'[i]? = tree.nodes[i]? := by
    intro i hi
    obtain ⟨x, hx⟩ := (h.occupied_iff i).mp hi
    obtain ⟨h₁, h₂⟩ := hmoved i x (Nat.zero_le _) hx
    refine ⟨h₁.trans hx.symm, (hsame i ?_).trans h₂⟩
    rw [h₁]
    simp
  refine ⟨{ tree with nodes := n', items := is, free := head }, fs, ?_,
    ⟨h.linked.frame fun i hi => (hitems i hi).2, h.root_eq, h.nodup, h.balanced, ?_,
      fun i => ?_, h.count_eq, hc, hn, hm⟩, hl.trans hln, rfl, fun i hi => (hitems i hi).1⟩
  · rw [reallocate, hbuffers]
    simp only
    rw [e, ok_bind]
    rw [e', ok_bind]
  · exact (hli.trans hln.symm).trans hl.symm
  · constructor
    · intro hi
      rw [(hitems i hi).1]
      exact (h.occupied_iff i).mp hi
    · rintro ⟨x, hx⟩
      by_contra hi
      obtain ⟨h₁, -⟩ := hkept i fun _ y hy => hi ((h.occupied_iff i).mpr ⟨y, hy⟩)
      rw [h₁] at hx
      have := (List.getElem_of_getElem? hx).2
      simp at this

/-- **Room is made or the tree is unchanged.** -/
theorem reserve_eq (target : Target) (h : Represents tree t free) (additional : Nat) :
    (∃ e, grow target tree.count tree.capacity additional = .error e ∧
      tree.reserve target additional = .ok (tree, .error e)) ∨
    ∃ capacity tree' free', grow target tree.count tree.capacity additional = .ok capacity ∧
      tree.reserve target additional = .ok (tree', .ok ()) ∧ Represents tree' t free' ∧
      tree'.capacity = capacity ∧ tree'.count = tree.count ∧ tree.count + additional ≤ capacity ∧
      ∀ i ∈ t.inorder, tree'.items[i]? = tree.items[i]? := by
  have hle := h.count_le
  rw [reserve, grow]
  by_cases hroom : additional ≤ tree.capacity - tree.count
  · rw [if_pos hroom, if_pos hroom]
    exact .inr ⟨_, tree, free, rfl, rfl, h, rfl, rfl, by omega, fun _ _ => rfl⟩
  · rw [if_neg hroom, if_neg hroom]
    cases hgrowth : growthCapacity target.usizeMax tree.count tree.capacity additional with
    | error e => exact .inl ⟨e, rfl, rfl⟩
    | ok capacity =>
      obtain ⟨hge, hcap⟩ := growthCapacity_ge hgrowth (by omega)
      rw [ok_bind]
      simp only
      cases hfirst : rawBuffer target.first capacity with
      | error e => exact .inl ⟨e, rfl, by rw [reallocate, buffers, hfirst]; rfl⟩
      | ok u =>
        cases hsecond : rawBuffer target.second capacity with
        | error e => exact .inl ⟨e, rfl, by rw [reallocate, buffers, hfirst, ok_bind, hsecond]; rfl⟩
        | ok v =>
          obtain ⟨tree', fs, e, hr, hc, hcount, hitems⟩ := reallocate_eq h hcap
            (by rw [hfirst, ok_bind, hsecond])
          exact .inr ⟨capacity, tree', fs, rfl, e, hr, hc, hcount, hge, hitems⟩

/-! ## 4. Insertion -/

/-- The side of its parent a hole is on. -/
def sideOf : Path Nat → OrderedTreeSide
  | [] => .root
  | f :: _ => match f.side with
    | .left => .left
    | .right => .right

theorem rebalance_eq {tree : OrderedTree Item} {p : Path Nat} {t : AvlTree Nat} (hd : Apart p t)
    (ht : Linked tree.nodes (parentOf p) t) (hp : Surrounded tree.nodes p (link t))
    (hroot : tree.root = rootOf p (link t)) : ∃ nodes', tree.rebalance (parentOf p) =
        .ok { tree with nodes := nodes', root := link (zip p t) } ∧
      Outside tree.nodes nodes' (around p ++ t.inorder) ∧ Linked nodes' none (zip p t) := by
  have hlen := hp.length_le (nodup_append.mp hd).1
  obtain ⟨n, e, ho, hl⟩ := @Nodes.rebalanceNodes_eq _ _ _ tree.turns hd ht hp (by rw [turns]; omega)
  refine ⟨n, ?_, ho, hl⟩
  rw [rebalance, hroot, e]
  rfl

theorem attach_eq {tree : OrderedTree Item} {p : Path Nat} (index : Nat)
    (h : Surrounded tree.nodes p none) (hd : (around p).Nodup) (hroot : tree.root = rootOf p none) :
    ∃ nodes', tree.attach index (parentOf p) (sideOf p) =
        .ok { tree with nodes := nodes', root := rootOf p (some index) } ∧
      Outside tree.nodes nodes' (parentOf p).toList ∧ Surrounded nodes' p (some index) := by
  cases p with
  | nil => exact ⟨tree.nodes, rfl, Outside.rfl', trivial⟩
  | cons f p =>
    obtain ⟨hassign, hsur⟩ := Nodes.refill_eq h hd
    refine ⟨_, ?_, outside_modify tree.nodes f.value _, hsur⟩
    have hsame : rootOf (f :: p) (some index) = tree.root := hroot.symm
    rw [hsame]
    cases f with
    | mk v side sib =>
      cases side with
      | left => exact congrArg (· >>= _) hassign
      | right => exact congrArg (· >>= _) hassign

/-- **A new item is put into the first free slot and linked into the hole the search ended in.** -/
theorem insertAt_eq {tree : OrderedTree Item} {p : Path Nat} {index : Nat} {free : List Nat}
    (h : Represents tree (plug p .leaf) (index :: free)) (item : Item) :
    ∃ tree', tree.insertAt item ⟨none, parentOf p, sideOf p⟩ = .ok (tree', index) ∧
      Represents tree' (zip p (.node .leaf index .leaf)) free ∧
      tree'.items = tree.items.set index (some item) ∧ tree'.capacity = tree.capacity := by
  obtain ⟨hfree, n, hn, hchain⟩ := h.chain
  obtain ⟨hsur, -, hroot⟩ := h.linked.split
  have hslot : tree.items[index]? = some none := (h.free_iff index).mp (.head _)
  have hnot : index ∉ (plug p .leaf).inorder := fun hi => h.not_free hi (.head _)
  have hd₀ := apart_iff.mpr h.nodup
  rw [Apart, AvlTree.inorder_leaf, append_nil] at hd₀
  have hin : ∀ i, i ∈ (plug p .leaf).inorder ↔ i ∈ around p := by
    intro i
    simp [inorder_plug, around]
  have hnew : index ∉ around p := fun hi => hnot ((hin index).mpr hi)
  have hd : Apart p (.node .leaf index .leaf) := by
    refine nodup_append.mpr ⟨hd₀, by simp, ?_⟩
    simp only [AvlTree.inorder_node, AvlTree.inorder_leaf, nil_append, mem_singleton]
    rintro i hi j rfl rfl
    exact hnew hi
  obtain ⟨n₁, e₁, o₁, hi₁⟩ := Nodes.assign_spec hn fun _ => ⟨parentOf p, none, none, 1, none⟩
  have hsur₁ := hsur.outside o₁ fun i hi hii => hnew (mem_singleton.mp hii ▸ hi)
  obtain ⟨n₂, e₂, o₂, hsur₂⟩ := @attach_eq _
    ⟨n₁, tree.items.set index (some item), tree.root, n.nextFree, tree.count + 1⟩ _ index hsur₁ hd₀ (h.root_eq.trans hroot)
  have hi₂ : n₂[index]? = some ⟨parentOf p, none, none, 1, none⟩ :=
    (o₂.2 index fun hi => hnew (Nodes.mem_around_of_parentOf hi)).trans hi₁
  obtain ⟨n₃, e₃, o₃, hl₃⟩ := @rebalance_eq _
    ⟨n₂, tree.items.set index (some item), rootOf p (some index), n.nextFree, tree.count + 1⟩ _ _ hd ⟨hi₂, trivial, trivial⟩ hsur₂ rfl
  have o : Outside tree.nodes n₃ (index :: around p) := by
    refine ((o₁.trans o₂).trans o₃).mono fun i hi => ?_
    simp only [mem_append, AvlTree.inorder_node, AvlTree.inorder_leaf, nil_append, mem_cons,
      not_mem_nil, or_false] at hi ⊢
    rcases hi with (hi | hi) | hi | hi
    · exact .inl hi
    · exact .inr (Nodes.mem_around_of_parentOf hi)
    · exact .inr hi
    · exact .inl hi
  refine ⟨{ nodes := n₃, items := tree.items.set index (some item),
            root := link (zip p (.node .leaf index .leaf)), free := n.nextFree,
            count := tree.count + 1 }, ?_, ?_, rfl, o.1⟩
  · rw [insertAt, hfree]
    simp only
    rw [Nodes.node_eq hn, ok_bind, Slot.write_eq hslot, ok_bind, e₁, ok_bind, e₂, ok_bind, e₃, ok_bind]
  · have hzip : ∀ i, i ∈ (zip p (.node .leaf index .leaf)).inorder ↔ i = index ∨ i ∈ around p := by
      intro i
      rw [inorder_zip]
      simp only [mem_append, AvlTree.inorder_node, AvlTree.inorder_leaf, nil_append,
        mem_singleton, around]
      tauto
    have hlt : index < tree.items.length := (List.getElem_of_getElem? hslot).1
    refine ⟨hl₃, rfl, ?_, ?_, ?_, fun i => ?_, ?_, ?_, (nodup_cons.mp h.free_nodup).2, fun i => ?_⟩
    · rw [inorder_zip, ← inorder_plug]
      exact apart_iff.mp hd
    · exact balanced_zip h.balanced ⟨trivial, trivial, by simp, by simp⟩ (by simp) (by simp)
    · simp [h.length_eq, o.1]
    · rw [hzip]
      by_cases hii : i = index
      · subst hii
        simp [getElem?_set_self hlt]
      · rw [getElem?_set_ne (Ne.symm hii), ← h.occupied_iff, hin]
        simp [hii]
    · simp only [h.count_eq, inorder_zip, inorder_plug, length_append,
        AvlTree.inorder_node, AvlTree.inorder_leaf, length_nil, length_cons, nil_append]
      omega
    · refine hchain.frame fun i hi => o.2 i ?_
      intro hin'
      rcases mem_cons.mp hin' with rfl | hin'
      · exact (nodup_cons.mp h.free_nodup).1 hi
      · exact h.not_free ((hin i).mpr hin') (.tail _ hi)
    · by_cases hii : i = index
      · subst hii
        simp [getElem?_set_self hlt, (nodup_cons.mp h.free_nodup).1]
      · rw [getElem?_set_ne (Ne.symm hii), ← h.free_iff]
        simp [hii]

/-! ## 5. Removal -/

/-- Along the left links lies the first index. -/
theorem endmost_left_eq {nodes : Nodes} {parent best : Option Nat} {turns : Nat}
    (h : Linked nodes parent t) (hturns : t.inorder.length < turns) :
    endmost nodes OrderedTreeNode.left turns (link t) best = .ok (t.inorder.head?.or best) := by
  induction t generalizing parent best turns with
  | leaf =>
    obtain ⟨turns, rfl⟩ : ∃ n, turns = n + 1 := ⟨turns - 1, by omega⟩
    rfl
  | node l i r ihl _ =>
    obtain ⟨turns, rfl⟩ : ∃ n, turns = n + 1 := ⟨turns - 1, by omega⟩
    rw [AvlTree.inorder_node, length_append, length_cons] at hturns
    rw [link_node, endmost, Nodes.node_eq h.1, ok_bind]
    refine (ihl h.2.1 (by omega)).trans ?_
    cases hl : l.inorder with
    | nil => simp [hl]
    | cons j js => simp [hl]

theorem minimum_eq {parent : Option Nat} (h : Linked tree.nodes parent t) (hd : t.inorder.Nodup) :
    tree.minimum (link t) = .ok t.inorder.head? := by
  have hlen := length_le_of_lt hd h.lt
  rw [minimum, endmost_left_eq h (by rw [turns]; omega), Option.or_none]

/-- The first index of a tree is at the end of a path of left links. -/
theorem exists_minimum (l : AvlTree Nat) (i : Nat) (r : AvlTree Nat) :
    ∃ q m mr, AvlTree.node l i r = plug q (.node .leaf m mr) ∧ Path.before q = [] := by
  induction l generalizing i r with
  | leaf => exact ⟨[], i, r, rfl, rfl⟩
  | node a j b iha _ =>
    obtain ⟨q, m, mr, hq, hbefore⟩ := iha j b
    refine ⟨q ++ [⟨i, .left, r⟩], m, mr, ?_, ?_⟩
    · rw [plug_append, ← hq]
      rfl
    · rw [before_append, hbefore]
      rfl

theorem swapItems_eq {i j : Nat} {x y : Item} (hne : i ≠ j)
    (hi : tree.items[i]? = some (some x)) (hj : tree.items[j]? = some (some y)) : tree.swapItems i j =
      .ok { tree with items := (tree.items.set i (some y)).set j (some x) } := by
  have hil := (List.getElem_of_getElem? hi).1
  have hjl := (List.getElem_of_getElem? hj).1
  have hj₁ : (tree.items.set i none)[j]? = some (some y) := by
    rw [getElem?_set_ne hne, hj]
  have hi₂ : ((tree.items.set i none).set j none)[i]? = some none := by
    rw [getElem?_set_ne hne.symm, getElem?_set_self hil]
  have hj₃ : (((tree.items.set i none).set j none).set i (some y))[j]? = some none := by
    rw [getElem?_set_ne hne, getElem?_set_self (by simpa using hjl)]
  rw [swapItems, if_neg hne, Slot.take_eq hi, ok_bind]
  simp only
  rw [Slot.take_eq hj₁, ok_bind]
  rw [Slot.write_eq hi₂, ok_bind, Slot.write_eq hj₃, ok_bind, set_comm none (some y) hne.symm,
    set_set, set_set]

theorem unlink_eq {p : Path Nat} {removed : Nat} (child : Option Nat)
    (h : Surrounded tree.nodes p (some removed)) (hd : (around p).Nodup) (hnew : removed ∉ around p)
    (hroot : tree.root = rootOf p (some removed)) : ∃ nodes', tree.unlink (parentOf p) child removed =
        .ok { tree with nodes := nodes', root := rootOf p child } ∧
      Outside tree.nodes nodes' (parentOf p).toList ∧ Surrounded nodes' p child := by
  cases p with
  | nil => exact ⟨tree.nodes, rfl, Outside.rfl', trivial⟩
  | cons f p =>
    obtain ⟨hassign, hsur⟩ := Nodes.refill_eq h hd
    refine ⟨_, ?_, outside_modify tree.nodes f.value (Nodes.refill f child), hsur⟩
    obtain ⟨⟨k, hk⟩, -, -⟩ := h
    have hsame : rootOf (f :: p) child = tree.root := hroot.symm
    rw [parentOf, unlink, Nodes.node_eq hk, ok_bind, hsame]
    cases f with
    | mk v side sib =>
      cases side with
      | left =>
        show (do
          let nodes ← if removed = removed then tree.nodes.assign v _ else tree.nodes.assign v _
          _) = _
        rw [if_pos rfl]
        exact congrArg (· >>= _) hassign
      | right =>
        cases sib with
        | leaf => exact congrArg (· >>= _) hassign
        | node a j b =>
          have hne : j ≠ removed := by
            rintro rfl
            exact hnew ((mem_around_cons ..).mpr (.inr (.inl (by simp))))
          show (do
            let nodes ← if j = removed then tree.nodes.assign v _ else tree.nodes.assign v _
            _) = _
          rw [if_neg hne]
          exact congrArg (· >>= _) hassign

/-- **A node with at most one subtree gives way to it**, and its slot goes to the front of the free
    list. -/
theorem detach_eq {p : Path Nat} {l r s : AvlTree Nat} {j : Nat}
    {x : Item} (h : Represents tree (plug p (.node l j r)) free)
    (hone : l = .leaf ∧ s = r ∨ r = .leaf ∧ s = l) (hx : tree.items[j]? = some (some x)) :
    ∃ tree', tree.detach j = .ok (tree', x) ∧ Represents tree' (zip p s) (j :: free) ∧
      tree'.items = tree.items.set j none ∧ tree'.capacity = tree.capacity := by
  obtain ⟨hsur, ⟨hj, hl, hr⟩, hroot⟩ := h.linked.split
  have hd := apart_iff.mpr h.nodup
  have hs : Linked tree.nodes (some j) s := by
    rcases hone with ⟨-, rfl⟩ | ⟨-, rfl⟩
    · exact hr
    · exact hl
  have hin : (AvlTree.node l j r).inorder.Perm (j :: s.inorder) := by
    rcases hone with ⟨rfl, rfl⟩ | ⟨rfl, rfl⟩
    · exact .refl _
    · simp
  have hchild : (occupied (parentOf p) (link l) (link r) (AvlTree.node l j r).height).child = link s := by
    rcases hone with ⟨rfl, rfl⟩ | ⟨rfl, rfl⟩
    · rfl
    · cases s <;> rfl
  have hd' : (around p ++ j :: s.inorder).Nodup := (hin.append_left _).nodup_iff.mp hd
  simp only [nodup_append, nodup_cons, mem_cons] at hd'
  have hmem : ∀ i, i ∈ (plug p (.node l j r)).inorder ↔ i = j ∨ i ∈ s.inorder ∨ i ∈ around p := by
    intro i
    have := hin.mem_iff (a := i)
    rw [mem_cons] at this
    rw [inorder_plug, mem_append, mem_append, this, around, mem_append]
    tauto
  obtain ⟨n₁, e₁, o₁, hsur₁⟩ := unlink_eq (link s) hsur hd'.1 (by grind) (h.root_eq.trans hroot)
  have o₁' := o₁.mono fun i => Nodes.mem_around_of_parentOf
  obtain ⟨n₂, e₂, o₂, hs₂⟩ := Nodes.assignParent_eq
    (hs.outside o₁' (by grind)) hd'.2.1.2
  have o₂' := o₂.mono fun i => Nodes.mem_of_mem_link
  have o := o₁'.trans o₂'
  have hfree : ∀ i ∈ free, i ≠ j ∧ i ∉ s.inorder ∧ i ∉ around p := by
    intro i hi
    have hnot := fun hi' => h.not_free (i := i) hi' hi
    rw [hmem] at hnot
    tauto
  have hchain₂ := h.chain.frame fun i hi => o.2 i (by grind)
  have hjlen : j < n₂.length := by
    rw [o.1]
    exact (List.getElem_of_getElem? hj).1
  obtain ⟨e₃, hchain₃⟩ := hchain₂.push hjlen (fun hj' => (hfree j hj').1 rfl)
    (fun _ => { OrderedTreeNode.empty with nextFree := tree.free }) fun _ => rfl
  have o₃ := outside_modify n₂ j fun _ => { OrderedTreeNode.empty with nextFree := tree.free }
  obtain ⟨n₄, e₄, o₄, hl₄⟩ := @rebalance_eq _
    ⟨n₂.modify j fun _ => { OrderedTreeNode.empty with nextFree := tree.free },
      tree.items.set j none, rootOf p (link s), some j, tree.count - 1⟩ p s
    (nodup_append.mpr ⟨hd'.1, hd'.2.1.2, by grind⟩) (hs₂.outside o₃ (by grind))
    ((hsur₁.outside o₂' (by grind)).outside o₃ (by grind)) rfl
  have hlen : n₄.length = tree.nodes.length := o₄.1.trans (o₃.1.trans o.1)
  refine ⟨⟨n₄, tree.items.set j none, link (zip p s), some j, tree.count - 1⟩, ?_, ?_, rfl, hlen⟩
  · rw [detach, Nodes.node_eq hj, ok_bind]
    rw [hchild]
    simp only [occupied]
    rw [e₁, ok_bind, e₂, ok_bind, Slot.take_eq hx, ok_bind]
    rw [e₃, ok_bind, e₄, ok_bind]
  · have hzip : ∀ i, i ∈ (zip p s).inorder ↔ i ∈ s.inorder ∨ i ∈ around p := by
      intro i
      rw [inorder_zip, mem_append, mem_append, around, mem_append]
      tauto
    have hjl : j < tree.items.length := (List.getElem_of_getElem? hx).1
    refine ⟨hl₄, rfl, ?_, ?_, ?_, fun i => ?_, ?_, ?_, ?_, fun i => ?_⟩
    · rw [inorder_zip, ← inorder_plug]
      exact apart_iff.mp (nodup_append.mpr ⟨hd'.1, hd'.2.1.2, by grind⟩)
    · have hb := balanced_of_plug h.balanced
      refine balanced_zip h.balanced ?_ ?_ ?_
      · rcases hone with ⟨-, rfl⟩ | ⟨-, rfl⟩
        · exact hb.2.1
        · exact hb.1
      · rcases hone with ⟨rfl, rfl⟩ | ⟨rfl, rfl⟩ <;> simp only [AvlTree.height_node] <;> omega
      · rcases hone with ⟨rfl, rfl⟩ | ⟨rfl, rfl⟩ <;> simp
    · simp [h.length_eq, hlen]
    · rw [hzip]
      by_cases hij : i = j
      · subst hij
        simp only [getElem?_set_self hjl]
        constructor
        · intro hi
          grind
        · rintro ⟨x, hx⟩
          cases hx
      · rw [getElem?_set_ne (Ne.symm hij), ← h.occupied_iff, hmem]
        tauto
    · have hcount := h.count_eq
      rw [inorder_plug, length_append, length_append, hin.length_eq, length_cons] at hcount
      rw [inorder_zip, length_append, length_append]
      show tree.count - 1 = _
      omega
    · refine hchain₃.frame fun i hi => o₄.2 i ?_
      rcases mem_cons.mp hi with rfl | hi
      · grind
      · grind
    · exact nodup_cons.mpr ⟨fun hj' => (hfree j hj').1 rfl, h.free_nodup⟩
    · by_cases hij : i = j
      · subst hij
        simp [getElem?_set_self hjl]
      · rw [getElem?_set_ne (Ne.symm hij), ← h.free_iff, mem_cons]
        tauto

/-- **The item of a node is taken out of the tree**; every other item keeps its place in the order. -/
theorem removeAt_eq {p : Path Nat} {l r : AvlTree Nat} {i : Nat}
    {x : Item} (h : Represents tree (plug p (.node l i r)) free) (hx : tree.items[i]? = some (some x)) :
    ∃ tree' t' free', tree.removeAt i = .ok (tree', x) ∧ Represents tree' t' free' ∧
      contents tree'.items t'.inorder = contents tree.items (Path.before p ++ l.inorder) ++
          contents tree.items (r.inorder ++ Path.after p) ∧ tree'.capacity = tree.capacity := by
  obtain ⟨-, ⟨hi, hl, hr⟩, -⟩ := h.linked.split
  have hd := apart_iff.mpr h.nodup
  simp only [Apart, around, AvlTree.inorder_node, nodup_append, nodup_cons, mem_append,
    mem_cons] at hd
  have hsimple : ∀ s, (l = .leaf ∧ s = r ∨ r = .leaf ∧ s = l) → tree.chooseRemoved i = .ok (tree, i) →
      ∃ tree' t' free', tree.removeAt i = .ok (tree', x) ∧ Represents tree' t' free' ∧
        contents tree'.items t'.inorder = contents tree.items (Path.before p ++ l.inorder) ++
            contents tree.items (r.inorder ++ Path.after p) ∧
        tree'.capacity = tree.capacity := by
    intro s hone hchoose
    obtain ⟨tree', e, hrep, hitems, hcap⟩ := detach_eq h hone hx
    refine ⟨tree', _, _, ?_, hrep, ?_, hcap⟩
    · rw [removeAt, hchoose, ok_bind]
      exact e
    · have hs : l.inorder ++ r.inorder = s.inorder := by
        rcases hone with ⟨rfl, rfl⟩ | ⟨rfl, rfl⟩ <;> simp
      rw [hitems, inorder_zip, ← hs, ← contents_append]
      refine (contents_congr fun k hk => getElem?_set_ne ?_).trans (by simp)
      rintro rfl
      grind
  rcases l with _ | ⟨a, j, b⟩
  · refine hsimple r (.inl ⟨rfl, rfl⟩) ?_
    rw [chooseRemoved, Nodes.node_eq hi]
    rfl
  rcases r with _ | ⟨c, k, e⟩
  · refine hsimple (.node a j b) (.inr ⟨rfl, rfl⟩) ?_
    rw [chooseRemoved, Nodes.node_eq hi]
    rfl
  · clear hsimple
    obtain ⟨q, m, mr, hq, hbefore⟩ := exists_minimum c k e
    have hrin : (AvlTree.node c k e).inorder = m :: (mr.inorder ++ Path.after q) := by
      rw [hq, inorder_plug, hbefore]
      simp
    have hmin : tree.minimum (some k) = .ok (some m) := by
      rw [← link_node c k e, minimum_eq hr (by rw [hrin]; grind), hrin]
      rfl
    have hplug : plug p (.node (.node a j b) i (.node c k e)) =
        plug (q ++ ⟨i, .right, .node a j b⟩ :: p) (.node .leaf m mr) := by
      rw [plug_append, ← hq]
      rfl
    rw [hplug] at h
    have hne : i ≠ m := by grind
    obtain ⟨y, hy⟩ := (h.occupied_iff m).mp (by simp [inorder_plug])
    have hilen := (List.getElem_of_getElem? hx).1
    have hmlen := (List.getElem_of_getElem? hy).1
    have hx' : ((tree.items.set i (some y)).set m (some x))[m]? = some (some x) :=
      getElem?_set_self (by simpa using hmlen)
    have h' := @Represents.withItems _ _ _ _ h ((tree.items.set i (some y)).set m (some x)) (by simp) (by
      intro k
      by_cases hkm : k = m
      · subst hkm
        simp [hx', hy]
      · rw [getElem?_set_ne (Ne.symm hkm)]
        by_cases hki : k = i
        · subst hki
          simp [getElem?_set_self hilen, hx]
        · rw [getElem?_set_ne (Ne.symm hki)])
    obtain ⟨tree', e', hrep, hitems, hcap⟩ := detach_eq h' (.inl ⟨rfl, rfl⟩) hx'
    refine ⟨tree', _, _, ?_, hrep, ?_, hcap⟩
    · have hchoose : tree.chooseRemoved i =
          .ok ({ tree with items := (tree.items.set i (some y)).set m (some x) }, m) := by
        rw [chooseRemoved, Nodes.node_eq hi, ok_bind]
        simp only [occupied, link_node]
        rw [hmin, ok_bind]
        simp only
        rw [swapItems_eq hne hx hy, ok_bind]
      rw [removeAt, hchoose, ok_bind]
      exact e'
    · -- the items in order: that of `m` has moved to `i`
      have hyi : tree'.items[i]? = some (some y) := by
        rw [hitems, getElem?_set_ne hne.symm, getElem?_set_ne hne.symm, getElem?_set_self hilen]
      have hother : ∀ k, k ≠ i → k ≠ m → tree'.items[k]? = tree.items[k]? := by
        intro k hki hkm
        rw [hitems, getElem?_set_ne (Ne.symm hkm), getElem?_set_ne (Ne.symm hkm),
          getElem?_set_ne (Ne.symm hki)]
      have hleft := @contents_congr _ tree.items tree'.items
        (Path.before p ++ (AvlTree.node a j b).inorder) fun k hk => hother k
          (by rw [mem_append] at hk; grind) (by rw [mem_append] at hk; grind)
      have hright := @contents_congr _ tree.items tree'.items
        (mr.inorder ++ Path.after q ++ Path.after p) fun k hk => hother k
          (by simp only [mem_append] at hk; grind) (by simp only [mem_append] at hk; grind)
      have horder : (zip (q ++ ⟨i, .right, .node a j b⟩ :: p) mr).inorder =
          (Path.before p ++ (AvlTree.node a j b).inorder) ++ i :: (mr.inorder ++ Path.after q ++ Path.after p) := by
        rw [inorder_zip, before_append, after_append, hbefore]
        simp [Path.before, Path.after, Frame.before, Frame.after]
      rw [horder, contents_append, contents_cons _ hyi, hleft, hright, hrin, cons_append, contents_cons _ hy]

/-! ## 6. Clearing -/

theorem clearLoop_eq {items : List (Option Item)} {k : Nat} {nodes : Nodes} {head : Option Nat}
    {free : List Nat} (hlen : items.length = nodes.length) (hk : k ≤ nodes.length)
    (hchain : Chain nodes head free) (hnodup : free.Nodup) (hfree : ∀ i, i ∈ free ↔ k ≤ i ∧ i < nodes.length)
    (hitems : ∀ i, k ≤ i → i < nodes.length → items[i]? = some none) :
    ∃ nodes' items' head' free', clearLoop k nodes items head = .ok (nodes', items', head') ∧
      Chain nodes' head' free' ∧ free'.Nodup ∧ (∀ i, i ∈ free' ↔ i < nodes.length) ∧
      nodes'.length = nodes.length ∧ items'.length = nodes.length ∧
      ∀ i, i < nodes.length → items'[i]? = some none := by
  induction k generalizing nodes items head free with
  | zero =>
    refine ⟨nodes, items, head, free, rfl, hchain, hnodup, fun i => ?_, rfl, hlen, fun i hi => ?_⟩
    · rw [hfree]
      exact and_iff_right (Nat.zero_le i)
    · exact hitems i (Nat.zero_le i) hi
  | succ k ih =>
    have hk' : k < items.length := by omega
    have hnew : k ∉ free := fun hin => by
      have := (hfree k).mp hin
      omega
    obtain ⟨hassign, hpush⟩ := hchain.push (i := k) (by omega) hnew
      (fun _ => { OrderedTreeNode.empty with nextFree := head }) fun _ => rfl
    have ho := outside_modify nodes k fun _ => { OrderedTreeNode.empty with nextFree := head }
    obtain ⟨items₁, hclear, hlen₁, hself, hother⟩ := Slot.discard_eq hk'
    obtain ⟨n, is, h, fs, e, hc, hn, hm, hln, hli, hempty⟩ := ih (by rw [hlen₁, ho.1, hlen]) (by rw [ho.1]; omega) hpush
      (nodup_cons.mpr ⟨hnew, hnodup⟩)
      (by
        intro i
        rw [mem_cons, hfree, ho.1]
        omega)
      (by
        intro i hi hlt
        rw [ho.1] at hlt
        by_cases hik : i = k
        · rw [hik, hself]
        · rw [hother i hik]
          exact hitems i (by omega) hlt)
    rw [ho.1] at hm hln hli hempty
    refine ⟨n, is, h, fs, ?_, hc, hn, hm, hln, hli, hempty⟩
    rw [clearLoop, hclear, ok_bind, hassign, ok_bind]
    exact e

theorem clear_eq (hlen : tree.items.length = tree.nodes.length) :
    ∃ tree' free', tree.clear = .ok tree' ∧ Represents tree' .leaf free' ∧ tree'.capacity = tree.capacity := by
  obtain ⟨n, is, h, fs, e, hc, hn, hm, hln, hli, hempty⟩ := @clearLoop_eq _ tree.items _ tree.nodes none []
    hlen (Nat.le_refl _) rfl nodup_nil
    (fun i => ⟨fun hi => absurd hi not_mem_nil, fun hi => absurd hi.2 (Nat.not_lt.mpr hi.1)⟩)
    fun i hi hlt => absurd hlt (Nat.not_lt.mpr hi)
  have hslot : ∀ i, is[i]? = some none ↔ i < tree.nodes.length := by
    intro i
    refine ⟨fun hi => ?_, hempty i⟩
    rw [← hli]
    exact (List.getElem_of_getElem? hi).1
  refine ⟨⟨n, is, none, h, 0⟩, fs, ?_, ⟨trivial, rfl, nodup_nil, trivial, hli.trans hln.symm,
    fun i => ?_, rfl, hc, hn, fun i => (hm i).trans (hslot i).symm⟩, hln⟩
  · rw [clear, e]
    rfl
  · constructor
    · intro hi
      cases hi
    · rintro ⟨x, hx⟩
      have hlt := (List.getElem_of_getElem? hx).1
      rw [(hslot i).mpr (hli ▸ hlt)] at hx
      cases hx

end OrderedTree

end Bray.Collection
