/-
  File:      Bray/Collection/Navigate.lean
  Subject:   NAVIGATION (std/collection/ordered_tree_navigation.bray): searches, bounds and steps end where
    the order of the items says.

  A search knows the items through one comparison with the key looked for. All it needs of the order
  is `Ascending`: along the tree the comparison is first less, then at most once equal, then greater.
-/
import Bray.Collection.Represent

namespace Bray.Collection

open Bray.Lib List Path

variable {Item : Type}

/-! ## 1. Comparisons along the tree -/

/-- Of two items in order, the first is less than the key unless the second is greater. -/
def Ascending (compare : Item → Ordering) (a b : Item) : Prop :=
  (compare b ≠ .gt → compare a = .lt) ∧ (compare a ≠ .lt → compare b = .gt)

/-- Every item at some indices compares in a given way. -/
def Every (items : List (Option Item)) (is : List Nat) (P : Item → Prop) : Prop :=
  ∀ x ∈ contents items is, P x

variable {items : List (Option Item)}

theorem every_append {is js : List Nat} {P : Item → Prop} :
    Every items (is ++ js) P ↔ Every items is P ∧ Every items js P := by
  rw [Every, contents_append]
  exact forall_mem_append

theorem every_cons {i : Nat} {is : List Nat} {x : Item} {P : Item → Prop} (h : items[i]? = some (some x)) :
    Every items (i :: is) P ↔ P x ∧ Every items is P := by
  rw [Every, contents_cons is h]
  exact forall_mem_cons

/-- What stands before and after an item in an ascending list. -/
theorem ascending_split {is js : List Nat} {i : Nat} {x : Item} {compare : Item → Ordering}
    (hord : (contents items (is ++ i :: js)).Pairwise (Ascending compare))
    (hx : items[i]? = some (some x)) : (compare x ≠ .gt → Every items is (compare · = .lt)) ∧
      (compare x ≠ .lt → Every items js (compare · = .gt)) := by
  rw [contents_append, contents_cons js hx, pairwise_append] at hord
  obtain ⟨-, hx', hbefore⟩ := hord
  exact ⟨fun h y hy => (hbefore y hy x (.head _)).1 h,
    fun h y hy => ((pairwise_cons.mp hx').1 y hy).2 h⟩

def Full (items : List (Option Item)) (t : AvlTree Nat) : Prop :=
  ∀ i ∈ t.inorder, ∃ x, items[i]? = some (some x)

theorem Represents.full {tree : OrderedTree Item} {t : AvlTree Nat} {free : List Nat}
    (h : Represents tree t free) : Full tree.items t :=
  fun i hi => (h.occupied_iff i).mp hi

namespace OrderedTree

/-! ## 2. Search -/

/-- Where a search ends: in a hole between the smaller and the greater items, or at the one item that
  is equal. -/
inductive Found (tree : OrderedTree Item) (compare : Item → Ordering) (t : AvlTree Nat) :
  OrderedTreeSearch → Prop where
  | absent (p : Path Nat) (ht : t = plug p .leaf)
    (hbefore : Every tree.items (Path.before p) (compare · = .lt))
    (hafter : Every tree.items (Path.after p) (compare · = .gt)) :
    Found tree compare t ⟨none, parentOf p, sideOf p⟩
  | present (p : Path Nat) (l : AvlTree Nat) (i : Nat) (r : AvlTree Nat) (x : Item)
    (side : OrderedTreeSide) (ht : t = plug p (.node l i r))
    (hitem : tree.items[i]? = some (some x)) (heq : compare x = .eq)
    (hbefore : Every tree.items (Path.before p ++ l.inorder) (compare · = .lt))
    (hafter : Every tree.items (r.inorder ++ Path.after p) (compare · = .gt)) :
    Found tree compare t ⟨some i, some i, side⟩

variable {tree : OrderedTree Item} {t s : AvlTree Nat} {p : Path Nat} {compare : Item → Ordering}

variable {i turns : Nat}

theorem mem_plug (p : Path Nat) (h : i ∈ s.inorder) : i ∈ (plug p s).inorder := by
  rw [inorder_plug]
  simp [h]

theorem inorder_plug_node (p : Path Nat) (l : AvlTree Nat) (i : Nat) (r : AvlTree Nat) :
    (plug p (.node l i r)).inorder = (Path.before p ++ l.inorder) ++ i :: (r.inorder ++ Path.after p) := by
  simp [inorder_plug]

theorem searchLoop_eq (hlink : Linked tree.nodes none (plug p s)) (hfull : Full tree.items (plug p s))
    (hord : (contents tree.items (plug p s).inorder).Pairwise (Ascending compare))
    (hbefore : Every tree.items (Path.before p) (compare · = .lt))
    (hafter : Every tree.items (Path.after p) (compare · = .gt)) (hturns : s.inorder.length < turns) :
    ∃ result, searchLoop tree compare turns (link s) (parentOf p) (sideOf p) = .ok result ∧
      Found tree compare (plug p s) result := by
  induction s generalizing p turns with
  | leaf =>
    obtain ⟨turns, rfl⟩ : ∃ n, turns = n + 1 := ⟨turns - 1, by omega⟩
    exact ⟨_, rfl, .absent p rfl hbefore hafter⟩
  | node l i r ihl ihr =>
    obtain ⟨turns, rfl⟩ : ∃ n, turns = n + 1 := ⟨turns - 1, by omega⟩
    rw [AvlTree.inorder_node, length_append, length_cons] at hturns
    obtain ⟨-, ⟨hi, -, -⟩, -⟩ := hlink.split
    obtain ⟨x, hx⟩ := hfull i (mem_plug p (by simp))
    have hord' := hord
    rw [inorder_plug_node] at hord'
    obtain ⟨hlow, hhigh⟩ := ascending_split hord' hx
    rw [link_node, searchLoop, Slot.get_eq hx, ok_bind]
    cases hc : compare x with
    | lt =>
      have hb : Every tree.items (Path.before (⟨i, .right, l⟩ :: p)) (compare · = .lt) := by
        have h := hlow (by simp [hc])
        simp only [Path.before, Frame.before]
        rw [← append_assoc, every_append]
        exact ⟨h, (every_cons hx).mpr ⟨hc, fun _ hy => absurd hy not_mem_nil⟩⟩
      obtain ⟨result, e, hf⟩ := @ihr (⟨i, .right, l⟩ :: p) turns hlink hfull hord hb
        hafter (by omega)
      refine ⟨result, ?_, hf⟩
      rw [Nodes.node_eq hi, ok_bind]
      exact e
    | eq =>
      refine ⟨_, rfl, .present p l i r x _ rfl hx hc (hlow (by simp [hc])) (hhigh (by simp [hc]))⟩
    | gt =>
      have ha : Every tree.items (Path.after (⟨i, .left, r⟩ :: p)) (compare · = .gt) := by
        have h := hhigh (by simp [hc])
        simp only [Path.after, Frame.after]
        rw [cons_append, every_cons hx]
        exact ⟨hc, h⟩
      obtain ⟨result, e, hf⟩ := @ihl (⟨i, .left, r⟩ :: p) turns hlink hfull hord
        (by simpa [Path.before, Frame.before] using hbefore) ha (by omega)
      refine ⟨result, ?_, hf⟩
      rw [Nodes.node_eq hi, ok_bind]
      exact e

theorem inorder_length_lt_turns (hlink : Linked tree.nodes none t) (hd : t.inorder.Nodup) :
    t.inorder.length < tree.turns :=
  Nat.lt_succ_of_le (length_le_of_lt hd hlink.lt)

/-- **A search** finds the item that is equal, or the place for one. -/
theorem search_eq {free : List Nat} (h : Represents tree t free)
    (hord : (contents tree.items t.inorder).Pairwise (Ascending compare)) :
    ∃ result, tree.search compare = .ok result ∧ Found tree compare t result := by
  rw [search, h.root_eq]
  exact searchLoop_eq (p := []) h.linked h.full hord (fun _ hy => absurd hy not_mem_nil)
    (fun _ hy => absurd hy not_mem_nil) (inorder_length_lt_turns h.linked h.nodup)

/-! ## 3. Bounds -/

/-- An item that a bound passes over. -/
def Below (compare : Item → Ordering) (inclusive : Bool) (x : Item) : Prop :=
  compare x = .lt ∨ compare x = .eq ∧ inclusive = false

/-- **A bound** is the first index whose item is not passed over. -/
def IsBound (tree : OrderedTree Item) (compare : Item → Ordering) (inclusive : Bool) (t : AvlTree Nat)
  (result : Option Nat) : Prop :=
  ∃ is js, t.inorder = is ++ js ∧ result = js.head? ∧
    Every tree.items is (Below compare inclusive) ∧ Every tree.items js (¬Below compare inclusive ·)

theorem boundLoop_eq {inclusive : Bool} (hlink : Linked tree.nodes none (plug p s))
    (hfull : Full tree.items (plug p s))
    (hord : (contents tree.items (plug p s).inorder).Pairwise (Ascending compare))
    (hbefore : Every tree.items (Path.before p) (Below compare inclusive))
    (hafter : Every tree.items (Path.after p) (¬Below compare inclusive ·)) (hturns : s.inorder.length < turns) :
    ∃ result, boundLoop tree compare inclusive turns (link s) (Path.after p).head? = .ok result ∧
      IsBound tree compare inclusive (plug p s) result := by
  induction s generalizing p turns with
  | leaf =>
    obtain ⟨turns, rfl⟩ : ∃ n, turns = n + 1 := ⟨turns - 1, by omega⟩
    exact ⟨_, rfl, Path.before p, Path.after p, by simp [inorder_plug], rfl, hbefore, hafter⟩
  | node l i r ihl ihr =>
    obtain ⟨turns, rfl⟩ : ∃ n, turns = n + 1 := ⟨turns - 1, by omega⟩
    rw [AvlTree.inorder_node, length_append, length_cons] at hturns
    obtain ⟨-, ⟨hi, -, -⟩, -⟩ := hlink.split
    obtain ⟨x, hx⟩ := hfull i (mem_plug p (by simp))
    have hord' := hord
    rw [inorder_plug_node] at hord'
    obtain ⟨hlow, hhigh⟩ := ascending_split hord' hx
    -- to the right: the item is passed over
    have hright : Below compare inclusive x →
      ∃ result, boundLoop tree compare inclusive turns (link r) (Path.after p).head? = .ok result ∧
        IsBound tree compare inclusive (plug p (.node l i r)) result := by
      intro hbelow
      have hb : Every tree.items (Path.before (⟨i, .right, l⟩ :: p)) (Below compare inclusive) := by
        simp only [Path.before, Frame.before]
        rw [← append_assoc, every_append]
        refine ⟨fun y hy => .inl (hlow ?_ y hy), (every_cons hx).mpr
          ⟨hbelow, fun _ hy => absurd hy not_mem_nil⟩⟩
        rcases hbelow with hc | ⟨hc, -⟩ <;> simp [hc]
      exact @ihr (⟨i, .right, l⟩ :: p) turns hlink hfull hord hb hafter (by omega)
    have habove : compare x ≠ .lt → Every tree.items (r.inorder ++ Path.after p) (¬Below compare inclusive ·) := by
      rintro hc y hy (hlt | ⟨heq, -⟩)
      · rw [hhigh hc y hy] at hlt
        cases hlt
      · rw [hhigh hc y hy] at heq
        cases heq
    rw [link_node, boundLoop, Slot.get_eq hx, ok_bind]
    cases hc : compare x with
    | lt =>
      obtain ⟨result, e, hf⟩ := hright (.inl hc)
      refine ⟨result, ?_, hf⟩
      rw [Nodes.node_eq hi, ok_bind]
      exact e
    | eq =>
      cases inclusive with
      | true =>
        refine ⟨_, rfl, Path.before p ++ l.inorder, i :: (r.inorder ++ Path.after p),
          inorder_plug_node .., rfl, fun y hy => .inl (hlow (by simp [hc]) y hy), ?_⟩
        exact (every_cons hx).mpr ⟨by simp [Below, hc], habove (by simp [hc])⟩
      | false =>
        obtain ⟨result, e, hf⟩ := hright (.inr ⟨hc, rfl⟩)
        refine ⟨result, ?_, hf⟩
        rw [Nodes.node_eq hi, ok_bind]
        exact e
    | gt =>
      have ha : Every tree.items (Path.after (⟨i, .left, r⟩ :: p)) (¬Below compare inclusive ·) := by
        simp only [Path.after, Frame.after]
        rw [cons_append, every_cons hx]
        exact ⟨by simp [Below, hc], habove (by simp [hc])⟩
      obtain ⟨result, e, hf⟩ := @ihl (⟨i, .left, r⟩ :: p) turns hlink hfull hord
        (by simpa [Path.before, Frame.before] using hbefore) ha (by omega)
      refine ⟨result, ?_, hf⟩
      rw [Nodes.node_eq hi, ok_bind]
      exact e

theorem bound_eq {free : List Nat} (inclusive : Bool) (h : Represents tree t free)
    (hord : (contents tree.items t.inorder).Pairwise (Ascending compare)) :
    ∃ result, tree.bound compare inclusive = .ok result ∧ IsBound tree compare inclusive t result := by
  rw [bound, h.root_eq]
  exact boundLoop_eq (p := []) h.linked h.full hord (fun _ hy => absurd hy not_mem_nil)
    (fun _ hy => absurd hy not_mem_nil) (inorder_length_lt_turns h.linked h.nodup)

/-! ## 4. Steps -/

/-- Along the right links lies the last index. -/
theorem endmost_right_eq {nodes : Nodes} {parent best : Option Nat} {t : AvlTree Nat}
    (h : Linked nodes parent t) (hturns : t.inorder.length < turns) :
    endmost nodes OrderedTreeNode.right turns (link t) best = .ok (t.inorder.getLast?.or best) := by
  induction t generalizing parent best turns with
  | leaf =>
    obtain ⟨turns, rfl⟩ : ∃ n, turns = n + 1 := ⟨turns - 1, by omega⟩
    rfl
  | node l i r _ ihr =>
    obtain ⟨turns, rfl⟩ : ∃ n, turns = n + 1 := ⟨turns - 1, by omega⟩
    rw [AvlTree.inorder_node, length_append, length_cons] at hturns
    rw [link_node, endmost, Nodes.node_eq h.1, ok_bind]
    refine (ihr h.2.2 (by omega)).trans ?_
    rw [AvlTree.inorder_node, getLast?_append, getLast?_cons]
    cases r.inorder.getLast? <;> rfl

theorem maximum_eq {parent : Option Nat} (h : Linked tree.nodes parent t) (hd : t.inorder.Nodup) :
    tree.maximum (link t) = .ok t.inorder.getLast? := by
  have hlen := length_le_of_lt hd h.lt
  rw [maximum, endmost_right_eq h (by rw [turns]; omega), Option.or_none]

/-- Up from a hole lies the first index after it. -/
theorem climb_eq {nodes : Nodes} {current : Nat} (h : Surrounded nodes p (some current))
    (hd : (current :: around p).Nodup) (hturns : p.length < turns) :
    climb nodes turns current (parentOf p) = .ok (Path.after p).head? := by
  induction p generalizing current turns with
  | nil =>
    obtain ⟨turns, rfl⟩ : ∃ n, turns = n + 1 := ⟨turns - 1, by omega⟩
    rfl
  | cons f p ih =>
    obtain ⟨turns, rfl⟩ : ∃ n, turns = n + 1 := ⟨turns - 1, by omega⟩
    obtain ⟨⟨k, hk⟩, hsib, hrest⟩ := h
    obtain ⟨hnew, hd⟩ := nodup_cons.mp hd
    rw [parentOf, climb, Nodes.node_eq hk, ok_bind]
    cases f with
    | mk v side sib =>
      cases side with
      | left =>
        refine (if_pos rfl).trans ?_
        simp [Path.after, Frame.after]
      | right =>
        have hne : link sib ≠ some current := by
          intro hlink
          exact hnew ((mem_around_cons ..).mpr (.inr (.inl (mem_of_link hlink))))
        refine (if_neg hne).trans ?_
        refine (ih hrest ?_ (Nat.lt_of_succ_lt_succ hturns)).trans ?_
        · refine nodup_cons.mpr ⟨?_, ?_⟩
          · simp [around, Path.before, Path.after, Frame.before, Frame.after, nodup_append] at hd ⊢
            grind
          · simp [around, Path.before, Path.after, Frame.before, Frame.after, nodup_append] at hd ⊢
            grind
        · simp [Path.after, Frame.after]

/-- In a list without repetition an element has one place. -/
theorem split_unique {is is' js js' : List Nat} (h : is ++ i :: js = is' ++ i :: js')
    (hd : (is ++ i :: js).Nodup) : js = js' := by
  induction is generalizing is' with
  | nil =>
    cases is' with
    | nil => exact (List.cons.inj h).2
    | cons k ks =>
      obtain ⟨rfl, hjs⟩ := List.cons.inj h
      have hin : i ∈ js := by
        rw [hjs]
        simp
      exact absurd hin (nodup_cons.mp hd).1
  | cons j is ih =>
    cases is' with
    | nil =>
      obtain ⟨rfl, hjs⟩ := List.cons.inj h
      exact absurd (by simp) (nodup_cons.mp hd).1
    | cons k ks => exact ih (List.cons.inj h).2 (nodup_cons.mp hd).2

/-- **The successor** of an index is the next one in order. -/
theorem successor_eq {is js : List Nat} (hlink : Linked tree.nodes none t)
    (hd : t.inorder.Nodup) (hsplit : t.inorder = is ++ i :: js) : tree.successor i = .ok js.head? := by
  obtain ⟨p, l, r, rfl⟩ := exists_of_mem (t := t) (x := i) (by rw [hsplit]; simp)
  obtain ⟨hsur, ⟨hi, -, hr⟩, -⟩ := hlink.split
  have hjs : js = r.inorder ++ Path.after p := by
    rw [inorder_plug_node] at hsplit hd
    exact (split_unique hsplit hd).symm
  have hd' := apart_iff.mpr hd
  rw [Apart, AvlTree.inorder_node] at hd'
  rw [successor, Nodes.node_eq hi, ok_bind, hjs]
  cases r with
  | leaf =>
    have hdp : (i :: around p).Nodup := by
      grind
    have hlen := hsur.length_le (nodup_cons.mp hdp).2
    exact climb_eq hsur hdp (by rw [turns]; omega)
  | node a k b =>
    simp only [occupied, link_node]
    rw [← link_node a k b, minimum_eq hr (by simp only [nodup_append, nodup_cons] at hd'; grind)]
    rw [AvlTree.inorder_node, head?_append]
    cases a.inorder <;> rfl

end OrderedTree

end Bray.Collection
