/-
  File:      Bray/Collection/Ordered.lean
  Subject:   THE ORDERED TREE AS A SEARCH TREE: items in strictly increasing key order, kept by every
    sequence of operations.

  The tree is used by maps and sets. What they do with it is here one machine (`OrderedTree.step`): a
  search, then, where nothing equal is stored, a reservation and an insertion at the place the search
  ended, although the reservation may have moved everything to a larger storage.
-/
import Bray.Collection.Navigate
import Bray.Lib.Run
import Mathlib

namespace Bray.Collection

open Bray.Lib List Path

variable {Item Key : Type}

/-! ## 1. Items in order -/

def Increasing (cmp : Key → Key → Ordering) (key : Item → Key) (items : List Item) : Prop :=
  items.Pairwise fun a b => cmp (key a) (key b) = .lt

/-- **An ordered tree**: a balanced tree of its occupied slots, with increasing keys. -/
structure Ordered (cmp : Key → Key → Ordering) (key : Item → Key) (tree : OrderedTree Item)
  (t : AvlTree Nat) (free : List Nat) : Prop extends Represents tree t free where
  increasing : Increasing cmp key (contents tree.items t.inorder)

section Order

variable {cmp : Key → Key → Ordering} [Std.TransCmp cmp] {key : Item → Key} {tree : OrderedTree Item}
  {t : AvlTree Nat} {free : List Nat}

theorem Increasing.ascending {items : List Item} (h : Increasing cmp key items) (k : Key) :
    items.Pairwise (Ascending fun x => cmp (key x) k) := by
  refine h.imp fun {a b} hab => ⟨fun hb => ?_, fun ha => ?_⟩
  · cases hc : cmp (key b) k with
    | lt => exact Std.TransCmp.lt_trans hab hc
    | eq => exact Std.TransCmp.lt_of_lt_of_eq hab hc
    | gt => exact absurd hc hb
  · cases hc : cmp (key a) k with
    | lt => exact absurd hc ha
    | eq => exact Std.TransCmp.gt_of_gt_of_eq (Std.OrientedCmp.gt_of_lt hab) hc
    | gt => exact Std.TransCmp.gt_trans (Std.OrientedCmp.gt_of_lt hab) hc

theorem increasing_insert {before after : List Item} {item : Item}
    (h : Increasing cmp key (before ++ after)) (hb : ∀ x ∈ before, cmp (key x) (key item) = .lt)
    (ha : ∀ x ∈ after, cmp (key x) (key item) = .gt) : Increasing cmp key (before ++ item :: after) := by
  obtain ⟨h₁, h₂, h₃⟩ := pairwise_append.mp h
  refine pairwise_append.mpr ⟨h₁, pairwise_cons.mpr ⟨fun x hx => ?_, h₂⟩, fun x hx y hy => ?_⟩
  · exact Std.OrientedCmp.lt_of_gt (ha x hx)
  · rcases mem_cons.mp hy with rfl | hy
    · exact hb x hx
    · exact h₃ x hx y hy

theorem increasing_replace {before after : List Item} {old new : Item}
    (h : Increasing cmp key (before ++ old :: after)) (heq : cmp (key new) (key old) = .eq) :
    Increasing cmp key (before ++ new :: after) := by
  obtain ⟨h₁, h₂, h₃⟩ := pairwise_append.mp h
  obtain ⟨h₄, h₅⟩ := pairwise_cons.mp h₂
  refine pairwise_append.mpr ⟨h₁, pairwise_cons.mpr ⟨fun x hx => ?_, h₅⟩, fun x hx y hy => ?_⟩
  · exact Std.TransCmp.lt_of_eq_of_lt heq (h₄ x hx)
  · rcases mem_cons.mp hy with rfl | hy
    · exact Std.TransCmp.lt_of_lt_of_eq (h₃ x hx old (.head _)) (Std.OrientedCmp.eq_symm heq)
    · exact h₃ x hx y (.tail _ hy)

namespace Ordered

theorem search_eq (h : Ordered cmp key tree t free) (k : Key) :
    ∃ result, tree.search (fun x => cmp (key x) k) = .ok result ∧
      OrderedTree.Found tree (fun x => cmp (key x) k) t result :=
  OrderedTree.search_eq h.toRepresents (h.increasing.ascending k)

omit [Std.TransCmp cmp] in
/-- The items of a tree, around an index. -/
theorem contents_plug {p : Path Nat} {l r : AvlTree Nat} {i : Nat} {x : Item}
    (hx : tree.items[i]? = some (some x)) : contents tree.items (plug p (.node l i r)).inorder =
      contents tree.items (before p ++ l.inorder) ++ x :: contents tree.items (r.inorder ++ after p) := by
  rw [OrderedTree.inorder_plug_node, contents_append, contents_cons _ hx]

/-- **A search that finds nothing, room, and an insertion**: the tree may have moved in between. -/
theorem insertAt_eq {p : Path Nat} {item : Item} {tree' : OrderedTree Item} {free' : List Nat}
    (h : Ordered cmp key tree (plug p .leaf) free)
    (hb : Every tree.items (before p) fun x => cmp (key x) (key item) = .lt)
    (ha : Every tree.items (after p) fun x => cmp (key x) (key item) = .gt)
    (h' : Represents tree' (plug p .leaf) free') (hroom : tree'.count + 1 ≤ tree'.capacity)
    (hsame : ∀ i ∈ (plug p .leaf).inorder, tree'.items[i]? = tree.items[i]?) :
    ∃ tree'' t'' free'' i, tree'.insertAt item ⟨none, parentOf p, OrderedTree.sideOf p⟩ =
      .ok (tree'', i) ∧ Ordered cmp key tree'' t'' free'' ∧ contents tree''.items t''.inorder =
      contents tree.items (before p) ++ item :: contents tree.items (after p) ∧
      tree''.capacity = tree'.capacity := by
  have hlen := h'.length_add
  match free', h' with
  | [], h' =>
    rw [length_nil] at hlen
    omega
  | i :: free', h' =>
    obtain ⟨tree'', e, hrep, hitems, hcap⟩ := OrderedTree.insertAt_eq h' item
    have hnot : i ∉ (plug p .leaf).inorder := fun hi => h'.not_free hi (.head _)
    have hslot := (h'.free_iff i).mp (.head _)
    have hi : tree''.items[i]? = some (some item) := by
      rw [hitems]
      exact List.getElem?_set_self (List.getElem_of_getElem? hslot).1
    have hother : ∀ j ∈ (plug p .leaf).inorder, tree''.items[j]? = tree.items[j]? := by
      intro j hj
      have hne : i ≠ j := by
        rintro rfl
        exact hnot hj
      rw [hitems, getElem?_set_ne hne, hsame j hj]
    rw [inorder_plug, AvlTree.inorder_leaf, append_nil] at hother
    have hcontents : contents tree''.items (zip p (.node .leaf i .leaf)).inorder =
      contents tree.items (before p) ++ item :: contents tree.items (after p) := by
      rw [inorder_zip, AvlTree.inorder_node, AvlTree.inorder_leaf, nil_append,
        append_assoc, contents_append, cons_append, nil_append, contents_cons _ hi,
        contents_congr fun j hj => hother j (mem_append_left _ hj),
        contents_congr fun j hj => hother j (mem_append_right _ hj)]
    refine ⟨tree'', _, free', i, e, ⟨hrep, ?_⟩, hcontents, hcap⟩
    rw [hcontents]
    refine increasing_insert ?_ hb ha
    have hinc := h.increasing
    rwa [inorder_plug, AvlTree.inorder_leaf, append_nil, contents_append] at hinc

/-- An item is written over with one of an equal key. -/
theorem update_eq {is js : List Nat} {i : Nat} {old new : Item} (h : Ordered cmp key tree t free)
    (hsplit : t.inorder = is ++ i :: js) (hold : tree.items[i]? = some (some old))
    (heq : cmp (key new) (key old) = .eq) :
  Ordered cmp key { tree with items := tree.items.set i (some new) } t free ∧
    contents (tree.items.set i (some new)) is = contents tree.items is ∧
    contents (tree.items.set i (some new)) (i :: js) = new :: contents tree.items js ∧
    contents (tree.items.set i (some new)) js = contents tree.items js := by
  have hilen := (List.getElem_of_getElem? hold).1
  have hd := h.nodup
  rw [hsplit] at hd
  have hnot := nodup_append.mp hd
  have hb := @contents_congr _ tree.items (tree.items.set i (some new)) is fun j hj => getElem?_set_ne (by
    rintro rfl
    exact hnot.2.2 _ hj _ (.head _) rfl)
  have ha := @contents_congr _ tree.items (tree.items.set i (some new)) js fun j hj => getElem?_set_ne (by
    rintro rfl
    exact (nodup_cons.mp hnot.2.1).1 hj)
  have hi : contents (tree.items.set i (some new)) (i :: js) = new :: contents tree.items js := by
    rw [contents_cons _ (List.getElem?_set_self hilen), ha]
  refine ⟨⟨h.toRepresents.withItems length_set fun j => ?_, ?_⟩, hb, hi, ha⟩
  · by_cases hij : j = i
    · subst hij
      simp [List.getElem?_set_self hilen, hold]
    · rw [getElem?_set_ne (Ne.symm hij)]
  · have hinc := h.increasing
    rw [hsplit, contents_append, contents_cons _ hold] at hinc
    rw [hsplit, contents_append, hb, hi]
    exact increasing_replace hinc heq

omit [Std.TransCmp cmp] in
theorem removeAt_eq {p : Path Nat} {l r : AvlTree Nat} {i : Nat} {x : Item}
    (h : Ordered cmp key tree (plug p (.node l i r)) free) (hx : tree.items[i]? = some (some x)) :
    ∃ tree' t' free', tree.removeAt i = .ok (tree', x) ∧ Ordered cmp key tree' t' free' ∧
      contents tree'.items t'.inorder = contents tree.items (before p ++ l.inorder) ++
        contents tree.items (r.inorder ++ after p) ∧ tree'.capacity = tree.capacity := by
  obtain ⟨tree', t', free', e, hrep, hcontents, hcap⟩ := OrderedTree.removeAt_eq h.toRepresents hx
  refine ⟨tree', t', free', e, ⟨hrep, ?_⟩, hcontents, hcap⟩
  have hinc := h.increasing
  rw [contents_plug hx] at hinc
  rw [hcontents]
  obtain ⟨h₁, h₂, h₃⟩ := pairwise_append.mp hinc
  exact pairwise_append.mpr ⟨h₁, (pairwise_cons.mp h₂).2, fun a ha b hb =>
    h₃ a ha b (.tail _ hb)⟩

end Ordered

end Order

/-! ## 2. The machine -/

/-- What an insertion makes of an equal item that is stored: `OrderedSet.insert` keeps it,
  `OrderedSet.replace` replaces it, `OrderedMap.insert` gives it the new value. -/
structure Merge (cmp : Key → Key → Ordering) (key : Item → Key) where
  merge : Item → Item → Item
  key_eq : ∀ old new, cmp (key old) (key new) = .eq → cmp (key (merge old new)) (key old) = .eq

inductive TreeOp (cmp : Key → Key → Ordering) (key : Item → Key) where
  | insert (item : Item) (merge : Merge cmp key)
  | remove (k : Key)
  | reserve (additional : Nat)
  | clear
  | search (k : Key)
  | bound (k : Key) (inclusive : Bool)
  | minimum
  | maximum

inductive TreeAnswer (Item : Type) where
  | done
  | failed (e : MemoryLayoutError)
  | item (removed : Option Item)
  | index (found : Option Nat)

namespace OrderedTree

variable {cmp : Key → Key → Ordering} {key : Item → Key}

def insert (target : Target) (tree : OrderedTree Item) (item : Item) (merge : Merge cmp key) :
  Except Panic (OrderedTree Item × TreeAnswer Item) := do
  let search ← tree.search fun x => cmp (key x) (key item)
  match search.found with
  | some index => do
    let (_, items) ← Slot.update tree.items index (merge.merge · item)
    .ok ({ tree with items := items }, .done)
  | none => do
    let (tree, reserved) ← tree.reserve target 1
    match reserved with
    | .error e => .ok (tree, .failed e)
    | .ok () => do
      let (tree, _) ← tree.insertAt item search
      .ok (tree, .done)

def remove (cmp : Key → Key → Ordering) (key : Item → Key) (tree : OrderedTree Item) (k : Key) :
  Except Panic (OrderedTree Item × TreeAnswer Item) := do
  let search ← tree.search fun x => cmp (key x) k
  match search.found with
  | some index => do
    let (tree, item) ← tree.removeAt index
    .ok (tree, .item (some item))
  | none => .ok (tree, .item none)

def step (target : Target) (tree : OrderedTree Item) :
  TreeOp cmp key → Except Panic (OrderedTree Item × TreeAnswer Item)
  | .insert item merge => tree.insert target item merge
  | .remove k => tree.remove cmp key k
  | .reserve additional => do
    let (tree, reserved) ← tree.reserve target additional
    match reserved with
    | .error e => .ok (tree, .failed e)
    | .ok () => .ok (tree, .done)
  | .clear => do
    let tree ← tree.clear
    .ok (tree, .done)
  | .search k => do
    let search ← tree.search fun x => cmp (key x) k
    .ok (tree, .index search.found)
  | .bound k inclusive => do
    let index ← tree.bound (fun x => cmp (key x) k) inclusive
    .ok (tree, .index index)
  | .minimum => do
    let index ← tree.minimum tree.root
    .ok (tree, .index index)
  | .maximum => do
    let index ← tree.maximum tree.root
    .ok (tree, .index index)

/-- An ordered tree of some shape. -/
def WellFormed (cmp : Key → Key → Ordering) (key : Item → Key) (tree : OrderedTree Item) : Prop :=
  ∃ t free, Ordered cmp key tree t free

variable [Std.TransCmp cmp]

variable {tree : OrderedTree Item}

theorem insert_wellFormed (target : Target) (h : WellFormed cmp key tree) (item : Item) (merge : Merge cmp key) :
    ∃ tree' answer, tree.insert target item merge = .ok (tree', answer) ∧ WellFormed cmp key tree' := by
  obtain ⟨t, free, h⟩ := h
  obtain ⟨result, e, hfound⟩ := h.search_eq (key item)
  rw [insert, e, ok_bind]
  cases hfound with
  | present p l i r x side ht hitem heq _ _ =>
    subst ht
    obtain ⟨hord, -⟩ := h.update_eq (inorder_plug_node ..) hitem (merge.key_eq x item heq)
    refine ⟨_, .done, ?_, _, _, hord⟩
    simp only
    rw [Slot.update_eq hitem]
    rfl
  | absent p ht hb ha =>
    subst ht
    simp only
    rcases OrderedTree.reserve_eq target h.toRepresents 1 with
      ⟨err, -, e₁⟩ | ⟨capacity, tree', free', -, e₁, h', hcap, hcount, hroom, hsame⟩
    · exact ⟨tree, .failed err, by rw [e₁]; rfl, _, _, h⟩
    · obtain ⟨tree'', t'', free'', i, e₂, hord, -, -⟩ := h.insertAt_eq hb ha h' (by omega) hsame
      refine ⟨tree'', .done, ?_, t'', free'', hord⟩
      rw [e₁, ok_bind]
      rw [e₂]
      rfl

theorem remove_wellFormed (h : WellFormed cmp key tree) (k : Key) :
    ∃ tree' answer, tree.remove cmp key k = .ok (tree', answer) ∧ WellFormed cmp key tree' := by
  obtain ⟨t, free, h⟩ := h
  obtain ⟨result, e, hfound⟩ := h.search_eq k
  rw [remove, e, ok_bind]
  cases hfound with
  | present p l i r x side ht hitem _ _ _ =>
    subst ht
    obtain ⟨tree', t', free', e', hord, -, -⟩ := h.removeAt_eq hitem
    refine ⟨tree', .item (some x), ?_, t', free', hord⟩
    simp only
    rw [e']
    rfl
  | absent p ht hb ha => exact ⟨tree, .item none, rfl, t, free, h⟩

/-- **One operation** on an ordered tree does not panic and leaves an ordered tree. -/
theorem step_wellFormed (target : Target) (h : WellFormed cmp key tree) (op : TreeOp cmp key) :
    ∃ tree' answer, tree.step target op = .ok (tree', answer) ∧ WellFormed cmp key tree' := by
  cases op with
  | insert item merge => exact insert_wellFormed target h item merge
  | remove k => exact remove_wellFormed h k
  | reserve additional =>
    obtain ⟨t, free, h⟩ := h
    rcases OrderedTree.reserve_eq target h.toRepresents additional with
      ⟨err, -, e⟩ | ⟨capacity, tree', free', -, e, h', -, -, -, hsame⟩
    · exact ⟨tree, .failed err, by rw [step, e]; rfl, t, free, h⟩
    · refine ⟨tree', .done, by rw [step, e]; rfl, t, free', h', ?_⟩
      rw [contents_congr hsame]
      exact h.increasing
  | clear =>
    obtain ⟨t, free, h⟩ := h
    obtain ⟨tree', free', e, h', -⟩ := clear_eq h.length_eq
    exact ⟨tree', .done, by rw [step, e]; rfl, .leaf, free', h', List.Pairwise.nil⟩
  | search k =>
    obtain ⟨t, free, h⟩ := h
    obtain ⟨result, e, -⟩ := h.search_eq k
    exact ⟨tree, .index result.found, by rw [step, e]; rfl, t, free, h⟩
  | bound k inclusive =>
    obtain ⟨t, free, h⟩ := h
    obtain ⟨result, e, -⟩ := bound_eq inclusive h.toRepresents (h.increasing.ascending k)
    exact ⟨tree, .index result, by rw [step, e]; rfl, t, free, h⟩
  | minimum =>
    obtain ⟨t, free, h⟩ := h
    refine ⟨tree, .index t.inorder.head?, ?_, t, free, h⟩
    rw [step, h.root_eq, minimum_eq h.linked h.nodup]
    rfl
  | maximum =>
    obtain ⟨t, free, h⟩ := h
    refine ⟨tree, .index t.inorder.getLast?, ?_, t, free, h⟩
    rw [step, h.root_eq, maximum_eq h.linked h.nodup]
    rfl

/-- **Every sequence of operations on a new tree runs without a panic and leaves a balanced search tree**:
  links that agree in both directions and true heights (`linked`), sibling heights that differ by at
  most one (`balanced`), increasing keys, a count of the occupied slots, and a free list of the others,
  each once. -/
theorem ordered_tree_invariant (target : Target) (capacity : Nat) (ops : List (TreeOp cmp key)) :
    (∃ e, construct target capacity = .ok (.error e : Except _ (OrderedTree Item))) ∨
    ∃ tree tree' answers t free, construct target capacity = .ok (.ok tree) ∧
      execute (step target) tree ops = .ok (tree', answers) ∧
      Linked tree'.nodes none t ∧ tree'.root = link t ∧ t.inorder.Nodup ∧ t.Balanced ∧
      Increasing cmp key (contents tree'.items t.inorder) ∧
      (∀ i, i ∈ t.inorder ↔ ∃ x, tree'.items[i]? = some (some x)) ∧ tree'.count = tree'.items.countP Option.isSome ∧
      Chain tree'.nodes tree'.free free ∧ free.Nodup ∧ ∀ i, i ∈ free ↔ tree'.items[i]? = some none := by
  rcases construct_eq target capacity with ⟨e, -, h⟩ | ⟨tree, free, -, e, h, -⟩
  · exact .inl ⟨e, h⟩
  · refine .inr ?_
    obtain ⟨tree', answers, hrun, t, free', h'⟩ := execute_invariant
      (fun tree op hwf => step_wellFormed target hwf op) (s := tree)
      (P := WellFormed cmp key) ⟨.leaf, free, h, List.Pairwise.nil⟩ ops
    exact ⟨tree, tree', answers, t, free', e, hrun, h'.linked, h'.root_eq, h'.nodup, h'.balanced,
      h'.increasing, h'.occupied_iff, h'.count_eq_countP, h'.chain, h'.free_nodup, h'.free_iff⟩

/-- Numbers, inserted and removed. -/
theorem ordered_tree_invariant_numbers :
  let target : Target := ⟨2 ^ 64 - 1, fun _ => .ok (), fun _ => .ok ()⟩
  let keep : Merge (compare : Nat → Nat → Ordering) id := ⟨fun old _ => old, fun _ _ _ => by simp⟩
  ∃ tree tree' answers t, construct target 0 = .ok (.ok tree) ∧
    execute (step target) tree [.insert 1 keep, .insert 2 keep, .insert 3 keep, .remove 2] =
      .ok (tree', answers) ∧ Linked tree'.nodes none t ∧ t.Balanced := by
  intro target keep
  rcases ordered_tree_invariant target 0 [.insert 1 keep, .insert 2 keep, .insert 3 keep, .remove 2]
    with ⟨e, h⟩ | ⟨tree, tree', answers, t, free, h, hrun, hlinked, -, -, hbalanced, -⟩
  · cases h
  · exact ⟨tree, tree', answers, t, h, hrun, hlinked, hbalanced⟩

end OrderedTree

end Bray.Collection
