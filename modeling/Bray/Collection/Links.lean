/-
  File:      Bray/Collection/Links.lean
  Subject:   TREES IN THE NODES OF AN ORDERED TREE: what the links of a well-formed ordered tree say, and
             what connecting, rotating and rebalancing do to it.

  `Linked nodes parent t`: the tree `t` of indices stands in the nodes, its root below `parent`, every
  link and every height as they should be. `Surrounded nodes p hole`: the nodes around a hole, whose
  heights may be stale. Every operation of the source on links is stated on these two:

  * `rotateNodesLeft_eq`, `rotateNodesRight_eq`, `rebalanceTurn_eq`;
  * `rebalanceNodes_eq` -- the loop puts the tree in the hole back with `Path.zip`.
-/
import Bray.Collection.Tree
import Bray.Lib.Avl
import Mathlib.Data.List.Perm.Subperm

namespace Bray.Collection

open Bray.Lib List

/-! ## 1. Trees in the nodes -/

/-- The link to a subtree. -/
def link : AvlTree Nat → Option Nat
  | .leaf => none
  | .node _ i _ => some i

@[simp] theorem link_leaf : link .leaf = none := rfl

@[simp] theorem link_node (l : AvlTree Nat) (i : Nat) (r : AvlTree Nat) : link (.node l i r) = some i := rfl

theorem mem_of_link {t : AvlTree Nat} {i : Nat} (h : link t = some i) : i ∈ t.inorder := by
  cases t with
  | leaf => cases h
  | node l j r =>
    cases h
    simp

def occupied (parent left right : Option Nat) (height : Nat) : OrderedTreeNode :=
  ⟨parent, left, right, height, none⟩

def Linked (nodes : Nodes) : Option Nat → AvlTree Nat → Prop
  | _, .leaf => True
  | parent, .node l i r =>
    nodes[i]? = some (occupied parent (link l) (link r) (AvlTree.node l i r).height) ∧
      Linked nodes (some i) l ∧ Linked nodes (some i) r

def frameNode (f : Frame Nat) (parent hole : Option Nat) (height : Nat) : OrderedTreeNode :=
  match f.side with
  | .left => occupied parent hole (link f.sibling) height
  | .right => occupied parent (link f.sibling) hole height

/-- The node a hole is below. -/
def parentOf : Path Nat → Option Nat
  | [] => none
  | f :: _ => some f.value

/-- The root of the tree with a given link in the hole. -/
def rootOf : Path Nat → Option Nat → Option Nat
  | [], hole => hole
  | f :: p, _ => rootOf p (some f.value)

/-- The indices around a hole. -/
def around (p : Path Nat) : List Nat := Path.before p ++ Path.after p

def Surrounded (nodes : Nodes) : Path Nat → Option Nat → Prop
  | [], _ => True
  | f :: p, hole =>
    (∃ h, nodes[f.value]? = some (frameNode f (parentOf p) hole h)) ∧
      Linked nodes (some f.value) f.sibling ∧ Surrounded nodes p (some f.value)

variable {nodes nodes' : Nodes} {parent parent' hole : Option Nat} {t l m r : AvlTree Nat} {p : Path Nat}
  {f : Frame Nat} {i x y : Nat}

/-- Two states of the nodes agree outside a list of indices. -/
def Outside (nodes nodes' : Nodes) (changed : List Nat) : Prop :=
  nodes'.length = nodes.length ∧ ∀ i, i ∉ changed → nodes'[i]? = nodes[i]?

theorem Outside.rfl' {nodes : Nodes} : Outside nodes nodes [] := ⟨rfl, fun _ _ => rfl⟩

theorem Outside.trans {a b c : Nodes} {s u : List Nat} (h : Outside a b s) (h' : Outside b c u) :
    Outside a c (s ++ u) := by
  refine ⟨h'.1.trans h.1, fun i hi => ?_⟩
  rw [mem_append, not_or] at hi
  exact (h'.2 i hi.2).trans (h.2 i hi.1)

theorem Outside.mono {a b : Nodes} {s u : List Nat} (h : Outside a b s) (hsub : ∀ i ∈ s, i ∈ u) :
    Outside a b u :=
  ⟨h.1, fun i hi => h.2 i fun hs => hi (hsub i hs)⟩

theorem outside_modify (nodes : Nodes) (i : Nat) (g : OrderedTreeNode → OrderedTreeNode) :
    Outside nodes (nodes.modify i g) [i] := by
  refine ⟨length_modify .., fun j hj => ?_⟩
  rw [mem_singleton] at hj
  simp [Ne.symm hj]

theorem Linked.frame (h : Linked nodes parent t) (heq : ∀ i ∈ t.inorder, nodes'[i]? = nodes[i]?) :
    Linked nodes' parent t := by
  induction t generalizing parent with
  | leaf => trivial
  | node l i r ihl ihr =>
    obtain ⟨hi, hl, hr⟩ := h
    refine ⟨(heq i (by simp)).trans hi, ihl hl fun j hj => heq j ?_, ihr hr fun j hj => heq j ?_⟩
    · simp [hj]
    · simp [hj]

theorem Linked.outside {changed : List Nat} (h : Linked nodes parent t)
    (ho : Outside nodes nodes' changed) (hd : ∀ i ∈ t.inorder, i ∉ changed) :
    Linked nodes' parent t :=
  h.frame fun i hi => ho.2 i (hd i hi)

theorem Linked.lt (h : Linked nodes parent t) : ∀ i ∈ t.inorder, i < nodes.length := by
  induction t generalizing parent with
  | leaf => intro i hi; cases hi
  | node l j r ihl ihr =>
    obtain ⟨hj, hl, hr⟩ := h
    intro i hi
    rcases mem_append.mp hi with hi | hi
    · exact ihl hl i hi
    · rcases mem_cons.mp hi with rfl | hi
      · exact (List.getElem_of_getElem? hj).1
      · exact ihr hr i hi

theorem mem_around_cons (f : Frame Nat) (p : Path Nat) (i : Nat) :
    i ∈ around (f :: p) ↔ i = f.value ∨ i ∈ f.sibling.inorder ∨ i ∈ around p := by
  cases f with
  | mk v side sib =>
    cases side with
    | left | right => simp [around, Path.before, Path.after, Frame.before, Frame.after]; tauto

theorem Surrounded.frame (h : Surrounded nodes p hole)
    (heq : ∀ i ∈ around p, nodes'[i]? = nodes[i]?) : Surrounded nodes' p hole := by
  induction p generalizing hole with
  | nil => trivial
  | cons f p ih =>
    obtain ⟨⟨k, hk⟩, hsib, hrest⟩ := h
    refine ⟨⟨k, (heq _ ((mem_around_cons ..).mpr (.inl rfl))).trans hk⟩, hsib.frame fun j hj => ?_,
      ih hrest fun j hj => ?_⟩
    · exact heq j ((mem_around_cons ..).mpr (.inr (.inl hj)))
    · exact heq j ((mem_around_cons ..).mpr (.inr (.inr hj)))

theorem Surrounded.outside {changed : List Nat} (h : Surrounded nodes p hole)
    (ho : Outside nodes nodes' changed) (hd : ∀ i ∈ around p, i ∉ changed) :
    Surrounded nodes' p hole :=
  h.frame fun i hi => ho.2 i (hd i hi)

theorem Surrounded.lt (h : Surrounded nodes p hole) : ∀ i ∈ around p, i < nodes.length := by
  induction p generalizing hole with
  | nil => intro i hi; cases hi
  | cons f p ih =>
    obtain ⟨⟨k, hk⟩, hsib, hrest⟩ := h
    intro i hi
    rcases (mem_around_cons ..).mp hi with rfl | hi | hi
    · exact (List.getElem_of_getElem? hk).1
    · exact hsib.lt i hi
    · exact ih hrest i hi

/-! ## 2. A tree is a hole and what fills it -/

/-- The indices in and around a hole are pairwise distinct. -/
def Apart (p : Path Nat) (t : AvlTree Nat) : Prop := (around p ++ t.inorder).Nodup

theorem apart_iff : Apart p t ↔ (Path.plug p t).inorder.Nodup := by
  rw [Path.inorder_plug, Apart, around, append_assoc, append_assoc]
  exact (List.Perm.append_left _ perm_append_comm).nodup_iff

theorem apart_fill : Apart (f :: p) t ↔ Apart p (f.fill t) := by
  rw [apart_iff, apart_iff]
  rfl

theorem Apart.of_inorder {t' : AvlTree Nat} (h : Apart p t) (heq : t'.inorder = t.inorder) :
    Apart p t' := by
  rw [Apart, heq]
  exact h

theorem link_fill : link (f.fill t) = some f.value := by
  cases f with
  | mk v side sib => cases side <;> rfl

theorem linked_fill (h : Linked nodes parent (f.fill t)) :
    (∃ k, nodes[f.value]? = some (frameNode f parent (link t) k)) ∧
      Linked nodes (some f.value) f.sibling ∧ Linked nodes (some f.value) t := by
  cases f with
  | mk v side sib =>
    cases side with
    | left => exact ⟨⟨_, h.1⟩, h.2.2, h.2.1⟩
    | right => exact ⟨⟨_, h.1⟩, h.2.1, h.2.2⟩

/-- **A linked tree is a linked subtree with its surroundings.** -/
theorem Linked.split (h : Linked nodes none (Path.plug p t)) :
    Surrounded nodes p (link t) ∧ Linked nodes (parentOf p) t ∧
      link (Path.plug p t) = rootOf p (link t) := by
  induction p generalizing t with
  | nil => exact ⟨trivial, h, rfl⟩
  | cons f p ih =>
    obtain ⟨hrest, hfill, hroot⟩ := ih h
    obtain ⟨hrec, hsib, ht⟩ := linked_fill hfill
    rw [link_fill] at hrest hroot
    exact ⟨⟨hrec, hsib, hrest⟩, ht, hroot⟩

theorem length_le_of_lt {is : List Nat} {n : Nat} (hd : is.Nodup) (hlt : ∀ i ∈ is, i < n) :
    is.length ≤ n := by
  have h := (subperm_of_subset hd fun i hi => mem_range.mpr (hlt i hi)).length_le
  rwa [length_range] at h

theorem length_path_le (p : Path Nat) : p.length ≤ (around p).length := by
  induction p with
  | nil => exact Nat.le_refl _
  | cons f p ih =>
    cases f with
    | mk v side sib =>
      have hcount : (around p).length + 1 ≤ (around (⟨v, side, sib⟩ :: p)).length := by
        cases side with
        | left | right =>
          simp only [around, Path.before, Path.after, Frame.before, Frame.after, length_append,
            length_cons, length_nil]
          omega
      rw [length_cons]
      omega

theorem Surrounded.length_le (h : Surrounded nodes p hole) (hd : (around p).Nodup) :
    p.length ≤ nodes.length :=
  (length_path_le p).trans (length_le_of_lt hd h.lt)

/-! ## 3. Assignments -/

namespace Nodes

variable {n : OrderedTreeNode}

theorem node_eq (h : nodes[i]? = some n) : nodes.node i = .ok n := by
  rw [node, h]

theorem assign_eq (h : nodes[i]? = some n)
    (g : OrderedTreeNode → OrderedTreeNode) : nodes.assign i g = .ok (nodes.modify i g) :=
  if_pos (List.getElem_of_getElem? h).1

theorem getElem?_modify_self (h : nodes[i]? = some n)
    (g : OrderedTreeNode → OrderedTreeNode) : (nodes.modify i g)[i]? = some (g n) := by
  simp [h]

theorem linkHeight_eq (h : Linked nodes parent t) : nodes.linkHeight (link t) = .ok t.height := by
  cases t with
  | leaf => rfl
  | node l i r =>
    rw [link_node, linkHeight, node_eq h.1]
    rfl

/-- The height of a node is that of the tree it is the root of. -/
theorem updateNodeHeight_eq {k : Nat}
    (h : nodes[i]? = some (occupied parent (link l) (link r) k)) (hl : Linked nodes (some i) l)
    (hr : Linked nodes (some i) r) :
    ∃ nodes', nodes.updateNodeHeight i = .ok nodes' ∧ Outside nodes nodes' [i] ∧
      nodes'[i]? = some (occupied parent (link l) (link r) (max l.height r.height + 1)) := by
  refine ⟨_, ?_, outside_modify nodes i fun n => { n with height := max l.height r.height + 1 },
    getElem?_modify_self h _⟩
  rw [updateNodeHeight, node_eq h, ok_bind, occupied, linkHeight_eq hl, ok_bind, linkHeight_eq hr,
    ok_bind]
  exact assign_eq h _

/-- The subtree a link leads to is put below another node. -/
theorem assignParent_eq (h : Linked nodes parent t) (hd : t.inorder.Nodup) :
    ∃ nodes', nodes.assignParent (link t) parent' = .ok nodes' ∧
      Outside nodes nodes' (link t).toList ∧ Linked nodes' parent' t := by
  cases t with
  | leaf => exact ⟨nodes, rfl, Outside.rfl', trivial⟩
  | node l i r =>
    obtain ⟨hi, hl, hr⟩ := h
    have ho := outside_modify nodes i fun n => { n with parent := parent' }
    refine ⟨_, assign_eq hi _, ho, getElem?_modify_self hi _, hl.outside ho fun j hj => ?_,
      hr.outside ho fun j hj => ?_⟩
    · rw [mem_singleton]
      rintro rfl
      exact (nodup_append.mp hd).2.2 _ hj _ (.head _) rfl
    · rw [mem_singleton]
      rintro rfl
      exact (nodup_cons.mp (nodup_append.mp hd).2.1).1 hj

/-- What is in a hole is replaced: the field of the node over it is assigned. -/
def refill (f : Frame Nat) (hole : Option Nat) (n : OrderedTreeNode) : OrderedTreeNode :=
  match f.side with
  | .left => { n with left := hole }
  | .right => { n with right := hole }

theorem refill_eq {hole' : Option Nat} (h : Surrounded nodes (f :: p) hole)
    (hd : (around (f :: p)).Nodup) :
    nodes.assign f.value (refill f hole') = .ok (nodes.modify f.value (refill f hole')) ∧
      Surrounded (nodes.modify f.value (refill f hole')) (f :: p) hole' := by
  obtain ⟨⟨k, hk⟩, hsib, hrest⟩ := h
  have ho := outside_modify nodes f.value (refill f hole')
  have hne : f.value ∉ f.sibling.inorder ∧ f.value ∉ around p := by
    cases f with
    | mk v side sib =>
      cases side with
      | left | right =>
        simp [around, Path.before, Path.after, Frame.before, Frame.after, nodup_append] at hd ⊢
        grind
  refine ⟨assign_eq hk _, ⟨k, ?_⟩, hsib.outside ho fun j hj => ?_, hrest.outside ho fun j hj => ?_⟩
  · rw [getElem?_modify_self hk]
    cases f with
    | mk v side sib => cases side <;> rfl
  · rw [mem_singleton]
    rintro rfl
    exact hne.1 hj
  · rw [mem_singleton]
    rintro rfl
    exact hne.2 hj

theorem connectNodeParent_eq {previous replacement : Nat} (h : Surrounded nodes p (some previous))
    (hd : (around p).Nodup) (hnew : previous ∉ around p) :
    ∃ nodes', nodes.connectNodeParent (rootOf p (some previous)) (parentOf p) previous replacement =
        .ok (nodes', rootOf p (some replacement)) ∧
      Outside nodes nodes' (parentOf p).toList ∧ Surrounded nodes' p (some replacement) := by
  cases p with
  | nil => exact ⟨nodes, rfl, Outside.rfl', trivial⟩
  | cons f p =>
    obtain ⟨hassign, hsur⟩ := refill_eq h hd
    refine ⟨_, ?_, outside_modify nodes f.value (refill f (some replacement)), hsur⟩
    obtain ⟨⟨k, hk⟩, -, -⟩ := h
    rw [parentOf, connectNodeParent, node_eq hk]
    cases f with
    | mk v side sib =>
      cases side with
      | left =>
        show (do
          let nodes ← if previous = previous then nodes.assign v _ else nodes.assign v _
          _) = _
        rw [if_pos rfl]
        exact congrArg (· >>= _) hassign
      | right =>
        cases sib with
        | leaf => exact congrArg (· >>= _) hassign
        | node a j b =>
          have hne : j ≠ previous := by
            rintro rfl
            exact hnew ((mem_around_cons ..).mpr (.inr (.inl (by simp))))
          show (do
            let nodes ← if j = previous then nodes.assign v _ else nodes.assign v _
            _) = _
          rw [if_neg hne]
          exact congrArg (· >>= _) hassign

/-! ## 4. Rotations -/

theorem mem_around_of_parentOf (h : i ∈ (parentOf p).toList) : i ∈ around p := by
  cases p with
  | nil => cases h
  | cons f p =>
    rw [parentOf, Option.mem_toList, Option.some.injEq] at h
    exact (mem_around_cons ..).mpr (.inl h.symm)

theorem mem_of_mem_link (h : i ∈ (link t).toList) : i ∈ t.inorder :=
  mem_of_link (Option.mem_toList.mp h)

theorem assign_spec (h : nodes[i]? = some n)
    (g : OrderedTreeNode → OrderedTreeNode) :
    ∃ nodes', nodes.assign i g = .ok nodes' ∧ Outside nodes nodes' [i] ∧ nodes'[i]? = some (g n) :=
  ⟨_, assign_eq h g, outside_modify nodes i g, getElem?_modify_self h g⟩

/-- The four assignments in the middle of a rotation: two to the pivot, two to the node it replaces. -/
theorem pivot_eq {nx ny : OrderedTreeNode} (g₁ g₂ g₃ g₄ : OrderedTreeNode → OrderedTreeNode)
    (hne : x ≠ y) (hx : nodes[x]? = some nx) (hy : nodes[y]? = some ny) :
    ∃ nodes',
      (∀ {β : Type} (k : Nodes → Except Panic β),
        (nodes.assign y g₁ >>= fun a => assign a y g₂ >>= fun b => assign b x g₃ >>= fun c =>
          assign c x g₄ >>= k) = k nodes') ∧
      Outside nodes nodes' [x, y] ∧ nodes'[x]? = some (g₄ (g₃ nx)) ∧
      nodes'[y]? = some (g₂ (g₁ ny)) := by
  obtain ⟨a, ea, oa, hya⟩ := assign_spec hy g₁
  obtain ⟨b, eb, ob, hyb⟩ := assign_spec hya g₂
  have hxb : b[x]? = some nx := by
    rw [ob.2 x (by simp [hne]), oa.2 x (by simp [hne]), hx]
  obtain ⟨c, ec, oc, hxc⟩ := assign_spec hxb g₃
  obtain ⟨d, ed, od, hxd⟩ := assign_spec hxc g₄
  refine ⟨d, fun k => ?_, ?_, hxd, ?_⟩
  · rw [ea, ok_bind, eb, ok_bind, ec, ok_bind, ed, ok_bind]
  · exact (((oa.trans ob).trans oc).trans od).mono (by simp)
  · rw [od.2 y (by simp [hne.symm]), oc.2 y (by simp [hne.symm]), hyb]

/-- The end of a rotation: the node that went down takes over the middle subtree, then its height and
    that of the pivot are set. -/
theorem adopt_eq {k : Nat} (hx : nodes[x]? = some (occupied parent (link l) (link r) k))
    (hm : Linked nodes parent' m) (hd : m.inorder.Nodup) (hxm : x ∉ m.inorder)
    (hlr : ∀ nodes', Outside nodes nodes' (x :: m.inorder) → Linked nodes' (some x) m →
      Linked nodes' (some x) l ∧ Linked nodes' (some x) r)
    (hxlr : x ∉ l.inorder ∧ x ∉ r.inorder) :
    ∃ nodes₁ nodes₂, nodes.assignParent (link m) (some x) = .ok nodes₁ ∧
      nodes₁.updateNodeHeight x = .ok nodes₂ ∧ Outside nodes nodes₂ (x :: m.inorder) ∧
      Linked nodes₂ parent (.node l x r) := by
  obtain ⟨n₁, e₁, o₁, hm₁⟩ := assignParent_eq hm hd
  have o₁' := o₁.mono (u := x :: m.inorder) fun i hi => .tail _ (mem_of_mem_link hi)
  obtain ⟨hl₁, hr₁⟩ := hlr n₁ o₁' hm₁
  have hx₁ := (o₁.2 x fun h => hxm (mem_of_mem_link h)).trans hx
  obtain ⟨n₂, e₂, o₂, hx₂⟩ := updateNodeHeight_eq hx₁ hl₁ hr₁
  refine ⟨n₁, n₂, e₁, e₂, (o₁'.trans o₂).mono (by grind), hx₂, hl₁.outside o₂ ?_, hr₁.outside o₂ ?_⟩
  · intro i hi hix
    rw [mem_singleton] at hix
    exact hxlr.1 (hix ▸ hi)
  · intro i hi hix
    rw [mem_singleton] at hix
    exact hxlr.2 (hix ▸ hi)

theorem rotateNodesLeft_eq {kx ky : Nat} (hd : Apart p (.node l x (.node m y r)))
    (hx : nodes[x]? = some (occupied (parentOf p) (link l) (some y) kx))
    (hy : nodes[y]? = some (occupied (some x) (link m) (link r) ky))
    (hl : Linked nodes (some x) l) (hm : Linked nodes (some y) m) (hr : Linked nodes (some y) r)
    (hp : Surrounded nodes p (some x)) :
    ∃ nodes', nodes.rotateNodesLeft (rootOf p (some x)) x = .ok (nodes', y, rootOf p (some y)) ∧
      Outside nodes nodes' (around p ++ (AvlTree.node l x (.node m y r)).inorder) ∧
      Linked nodes' (parentOf p) (.node (.node l x m) y r) ∧ Surrounded nodes' p (some y) := by
  simp only [Apart, AvlTree.inorder_node, nodup_append, nodup_cons, mem_append,
    mem_cons] at hd
  obtain ⟨n₁, e₁, o₁, s₁⟩ := connectNodeParent_eq hp hd.1 (by grind)
  have o₁' := o₁.mono fun i => mem_around_of_parentOf
  have hx₁ := (o₁'.2 x (by grind)).trans hx
  have hy₁ := (o₁'.2 y (by grind)).trans hy
  obtain ⟨n₂, e₂, o₂, hx₂, hy₂⟩ := pivot_eq (fun n => { n with parent := parentOf p })
    (fun n => { n with left := some x }) (fun n => { n with parent := some y })
    (fun n => { n with right := link m }) (by grind) hx₁ hy₁
  have o := o₁'.trans o₂
  have hm₂ := hm.outside o (by grind)
  obtain ⟨n₃, n₄, e₃, e₄, o₄, hx₄⟩ := adopt_eq (l := l) (r := m) (k := kx) hx₂ hm₂ (by grind) (by grind)
    (fun n' ho hm' => ⟨(hl.outside o (by grind)).outside ho (by grind), hm'⟩) (by grind)
  have hr₄ := (hr.outside o (by grind)).outside o₄ (by grind)
  have hy₄ := (o₄.2 y (by grind)).trans hy₂
  obtain ⟨n₅, e₅, o₅, hy₅⟩ := updateNodeHeight_eq (l := .node l x m) (r := r) hy₄ hx₄ hr₄
  refine ⟨n₅, ?_, ((o.trans o₄).trans o₅).mono ?_, ⟨hy₅, hx₄.outside o₅ ?_, hr₄.outside o₅ ?_⟩,
    ((s₁.outside o₂ ?_).outside o₄ ?_).outside o₅ ?_⟩
  · rw [rotateNodesLeft, node_eq hx, ok_bind]
    simp only [occupied]
    rw [node_eq hy, ok_bind]
    simp only [occupied]
    rw [e₁, ok_bind]
    rw [e₂, e₃, ok_bind, e₄, ok_bind, e₅, ok_bind]
  · simp only [mem_append, mem_cons, AvlTree.inorder_node]
    grind
  · simp only [AvlTree.inorder_node, mem_append, mem_cons]
    grind
  · grind
  · grind
  · grind
  · grind

theorem rotateNodesRight_eq {kx ky : Nat} (hd : Apart p (.node (.node l y m) x r))
    (hx : nodes[x]? = some (occupied (parentOf p) (some y) (link r) kx))
    (hy : nodes[y]? = some (occupied (some x) (link l) (link m) ky))
    (hl : Linked nodes (some y) l) (hm : Linked nodes (some y) m) (hr : Linked nodes (some x) r)
    (hp : Surrounded nodes p (some x)) :
    ∃ nodes', nodes.rotateNodesRight (rootOf p (some x)) x = .ok (nodes', y, rootOf p (some y)) ∧
      Outside nodes nodes' (around p ++ (AvlTree.node (.node l y m) x r).inorder) ∧
      Linked nodes' (parentOf p) (.node l y (.node m x r)) ∧ Surrounded nodes' p (some y) := by
  simp only [Apart, AvlTree.inorder_node, nodup_append, nodup_cons, mem_append,
    mem_cons] at hd
  obtain ⟨n₁, e₁, o₁, s₁⟩ := connectNodeParent_eq hp hd.1 (by grind)
  have o₁' := o₁.mono fun i => mem_around_of_parentOf
  have hx₁ := (o₁'.2 x (by grind)).trans hx
  have hy₁ := (o₁'.2 y (by grind)).trans hy
  obtain ⟨n₂, e₂, o₂, hx₂, hy₂⟩ := pivot_eq (fun n => { n with parent := parentOf p })
    (fun n => { n with right := some x }) (fun n => { n with parent := some y })
    (fun n => { n with left := link m }) (by grind) hx₁ hy₁
  have o := o₁'.trans o₂
  have hm₂ := hm.outside o (by grind)
  obtain ⟨n₃, n₄, e₃, e₄, o₄, hx₄⟩ := adopt_eq (l := m) (r := r) (k := kx) hx₂ hm₂ (by grind) (by grind)
    (fun n' ho hm' => ⟨hm', (hr.outside o (by grind)).outside ho (by grind)⟩) (by grind)
  have hl₄ := (hl.outside o (by grind)).outside o₄ (by grind)
  have hy₄ := (o₄.2 y (by grind)).trans hy₂
  obtain ⟨n₅, e₅, o₅, hy₅⟩ := updateNodeHeight_eq (l := l) (r := .node m x r) hy₄ hl₄ hx₄
  refine ⟨n₅, ?_, ((o.trans o₄).trans o₅).mono ?_, ⟨hy₅, hl₄.outside o₅ ?_, hx₄.outside o₅ ?_⟩,
    ((s₁.outside o₂ ?_).outside o₄ ?_).outside o₅ ?_⟩
  · rw [rotateNodesRight, node_eq hx, ok_bind]
    simp only [occupied]
    rw [node_eq hy, ok_bind]
    simp only [occupied]
    rw [e₁, ok_bind]
    rw [e₂, e₃, ok_bind, e₄, ok_bind, e₅, ok_bind]
  · simp only [mem_append, mem_cons, AvlTree.inorder_node]
    grind
  · grind
  · simp only [AvlTree.inorder_node, mem_append, mem_cons]
    grind
  · grind
  · grind
  · grind

/-! ## 5. Rebalancing -/

/-- What a turn of the loop comes to: the tree in a hole is replaced by another of the same
    indices. -/
def Replaced (nodes : Nodes) (p : Path Nat) (t t' : AvlTree Nat)
    (result : Except Panic (Nodes × Nat × Option Nat)) : Prop :=
  ∃ nodes' top, result = .ok (nodes', top, rootOf p (some top)) ∧
    Outside nodes nodes' (around p ++ t.inorder) ∧ Linked nodes' (parentOf p) t' ∧
    link t' = some top ∧ Surrounded nodes' p (some top)

/-- The left subtree is the higher one. -/
theorem rebalanceLeft_eq (hd : Apart p (.node (.node l y m) x r))
    (h : Linked nodes (parentOf p) (.node (.node l y m) x r)) (hp : Surrounded nodes p (some x)) :
    Replaced nodes p (.node (.node l y m) x r)
      (if m.height > l.height then AvlTree.rotateRight (.node (AvlTree.rotateLeft (.node l y m)) x r)
        else AvlTree.rotateRight (.node (.node l y m) x r))
      (if m.height > l.height then do
          let (nodes, _, root) ← nodes.rotateNodesLeft (rootOf p (some x)) y
          nodes.rotateNodesRight root x
        else nodes.rotateNodesRight (rootOf p (some x)) x) := by
  obtain ⟨hx, ⟨hy, hl, hm⟩, hr⟩ := h
  by_cases hheavy : m.height > l.height
  · rw [if_pos hheavy, if_pos hheavy]
    match m, hheavy, hm with
    | .leaf, hheavy, _ => cases hheavy
    | .node a z b, _, hm =>
      obtain ⟨hz, ha, hb⟩ := hm
      -- the inner rotation happens in the hole below `x`
      obtain ⟨n₁, e₁, o₁, ⟨hz₁, hleft₁, hb₁⟩, s₁⟩ := rotateNodesLeft_eq (p := ⟨x, .left, r⟩ :: p)
        (apart_fill.mpr hd) hy hz hl ha hb ⟨⟨_, hx⟩, hr, hp⟩
      obtain ⟨⟨k, hx₁⟩, hr₁, hp₁⟩ := s₁
      obtain ⟨n₂, e₂, o₂, h₂, s₂⟩ := rotateNodesRight_eq (hd.of_inorder (by simp)) hx₁ hz₁ hleft₁ hb₁
        hr₁ hp₁
      refine ⟨n₂, z, ?_, (o₁.trans o₂).mono ?_, h₂, rfl, s₂⟩
      · rw [show rootOf p (some x) = rootOf (⟨x, .left, r⟩ :: p) (some y) from rfl, e₁, ok_bind]
        exact e₂
      · intro i hi
        simp only [mem_append, mem_around_cons, AvlTree.inorder_node, mem_cons] at hi ⊢
        tauto
  · rw [if_neg hheavy, if_neg hheavy]
    obtain ⟨n₁, e₁, o₁, h₁, s₁⟩ := rotateNodesRight_eq hd hx hy hl hm hr hp
    exact ⟨n₁, y, e₁, o₁, h₁, rfl, s₁⟩

/-- The right subtree is the higher one. -/
theorem rebalanceRight_eq (hd : Apart p (.node l x (.node m y r)))
    (h : Linked nodes (parentOf p) (.node l x (.node m y r))) (hp : Surrounded nodes p (some x)) :
    Replaced nodes p (.node l x (.node m y r))
      (if m.height > r.height then AvlTree.rotateLeft (.node l x (AvlTree.rotateRight (.node m y r)))
        else AvlTree.rotateLeft (.node l x (.node m y r)))
      (if m.height > r.height then do
          let (nodes, _, root) ← nodes.rotateNodesRight (rootOf p (some x)) y
          nodes.rotateNodesLeft root x
        else nodes.rotateNodesLeft (rootOf p (some x)) x) := by
  obtain ⟨hx, hl, hy, hm, hr⟩ := h
  by_cases hheavy : m.height > r.height
  · rw [if_pos hheavy, if_pos hheavy]
    match m, hheavy, hm with
    | .leaf, hheavy, _ => cases hheavy
    | .node a z b, _, hm =>
      obtain ⟨hz, ha, hb⟩ := hm
      obtain ⟨n₁, e₁, o₁, ⟨hz₁, ha₁, hright₁⟩, s₁⟩ := rotateNodesRight_eq (p := ⟨x, .right, l⟩ :: p)
        (apart_fill.mpr hd) hy hz ha hb hr ⟨⟨_, hx⟩, hl, hp⟩
      obtain ⟨⟨k, hx₁⟩, hl₁, hp₁⟩ := s₁
      obtain ⟨n₂, e₂, o₂, h₂, s₂⟩ := rotateNodesLeft_eq (hd.of_inorder (by simp)) hx₁ hz₁ hl₁ ha₁
        hright₁ hp₁
      refine ⟨n₂, z, ?_, (o₁.trans o₂).mono ?_, h₂, rfl, s₂⟩
      · rw [show rootOf p (some x) = rootOf (⟨x, .right, l⟩ :: p) (some y) from rfl, e₁, ok_bind]
        exact e₂
      · intro i hi
        simp only [mem_append, mem_around_cons, AvlTree.inorder_node, mem_cons] at hi ⊢
        tauto
  · rw [if_neg hheavy, if_neg hheavy]
    obtain ⟨n₁, e₁, o₁, h₁, s₁⟩ := rotateNodesLeft_eq hd hx hy hl hm hr hp
    exact ⟨n₁, y, e₁, o₁, h₁, rfl, s₁⟩

/-- **One turn** of the loop: the node is balanced. -/
theorem rebalanceTurn_eq {k : Nat} (hd : Apart p (.node l x r))
    (hx : nodes[x]? = some (occupied (parentOf p) (link l) (link r) k))
    (hl : Linked nodes (some x) l) (hr : Linked nodes (some x) r) (hp : Surrounded nodes p (some x)) :
    Replaced nodes p (.node l x r) (AvlTree.balance l x r)
      (nodes.rebalanceTurn (rootOf p (some x)) x) := by
  have hd' := hd
  simp only [Apart, AvlTree.inorder_node, nodup_append, nodup_cons, mem_append,
    mem_cons] at hd'
  obtain ⟨n₁, e₁, o₁, hx₁⟩ := updateNodeHeight_eq hx hl hr
  have hl₁ := hl.outside o₁ (by grind)
  have hr₁ := hr.outside o₁ (by grind)
  have hp₁ := hp.outside o₁ (by grind)
  have hwider : ∀ {t' result}, Replaced n₁ p (.node l x r) t' result →
      Replaced nodes p (.node l x r) t' result := by
    rintro t' result ⟨n₂, top, e₂, o₂, h₂, hlink, s₂⟩
    refine ⟨n₂, top, e₂, (o₁.trans o₂).mono ?_, h₂, hlink, s₂⟩
    intro i hi
    simp only [mem_append, mem_cons, AvlTree.inorder_node] at hi ⊢
    grind
  refine hwider ?_
  rw [rebalanceTurn, e₁, ok_bind, node_eq hx₁, ok_bind]
  simp only [occupied]
  rw [linkHeight_eq hl₁, ok_bind, linkHeight_eq hr₁, ok_bind]
  unfold AvlTree.balance
  by_cases hleft : l.height > r.height + 1
  · rw [if_pos hleft, if_pos hleft]
    match l, hleft, hd, hx₁, hl₁ with
    | .node a y b, _, hd, hx₁, hl₁ =>
      rw [link_node]
      simp only
      rw [node_eq hl₁.1, ok_bind]
      simp only [occupied]
      rw [linkHeight_eq hl₁.2.1, ok_bind, linkHeight_eq hl₁.2.2, ok_bind]
      exact rebalanceLeft_eq hd ⟨hx₁, hl₁, hr₁⟩ hp₁
  · rw [if_neg hleft, if_neg hleft]
    by_cases hright : r.height > l.height + 1
    · rw [if_pos hright, if_pos hright]
      match r, hright, hd, hx₁, hr₁ with
      | .node a y b, _, hd, hx₁, hr₁ =>
        rw [link_node]
        simp only
        rw [node_eq hr₁.1, ok_bind]
        simp only [occupied]
        rw [linkHeight_eq hr₁.2.1, ok_bind, linkHeight_eq hr₁.2.2, ok_bind]
        exact rebalanceRight_eq hd ⟨hx₁, hl₁, hr₁⟩ hp₁
    · rw [if_neg hright, if_neg hright]
      exact ⟨n₁, x, rfl, Outside.rfl'.mono (by simp), ⟨hx₁, hl₁, hr₁⟩, rfl, hp₁⟩

/-- **The loop** takes the tree in a hole up to the root, balancing every node over it. -/
theorem rebalanceNodes_eq {turns : Nat} (hd : Apart p t) (ht : Linked nodes (parentOf p) t)
    (hp : Surrounded nodes p (link t)) (hturns : p.length < turns) :
    ∃ nodes', nodes.rebalanceNodes (rootOf p (link t)) (parentOf p) turns =
        .ok (nodes', link (Path.zip p t)) ∧
      Outside nodes nodes' (around p ++ t.inorder) ∧ Linked nodes' none (Path.zip p t) := by
  induction p generalizing nodes t turns with
  | nil =>
    obtain ⟨turns, rfl⟩ : ∃ n, turns = n + 1 := ⟨turns - 1, by omega⟩
    exact ⟨nodes, rfl, Outside.rfl'.mono (by simp), ht⟩
  | cons f p ih =>
    obtain ⟨turns, rfl⟩ : ∃ n, turns = n + 1 := ⟨turns - 1, by omega⟩
    obtain ⟨⟨k, hk⟩, hsib, hrest⟩ := hp
    have hturn : Replaced nodes p (f.fill t) (f.balance t)
        (nodes.rebalanceTurn (rootOf p (some f.value)) f.value) := by
      cases f with
      | mk v side sib =>
        cases side with
        | left => exact rebalanceTurn_eq (apart_fill.mp hd) hk ht hsib hrest
        | right => exact rebalanceTurn_eq (apart_fill.mp hd) hk hsib ht hrest
    obtain ⟨n₁, top, e₁, o₁, h₁, hlink, s₁⟩ := hturn
    have hinorder : (f.balance t).inorder = (f.fill t).inorder := by
      rw [Frame.inorder_balance, Frame.inorder_fill]
    obtain ⟨n₂, e₂, o₂, h₂⟩ := ih ((apart_fill.mp hd).of_inorder hinorder) h₁
      (hlink ▸ s₁) (Nat.lt_of_succ_lt_succ hturns)
    refine ⟨n₂, ?_, (o₁.trans o₂).mono ?_, h₂⟩
    · rw [parentOf, rebalanceNodes, rootOf, e₁, ok_bind]
      simp only
      obtain ⟨n, hn, hparent⟩ : ∃ n, n₁[top]? = some n ∧ n.parent = parentOf p := by
        cases hb : f.balance t with
        | leaf => rw [hb] at hlink; cases hlink
        | node a j b =>
          rw [hb] at hlink h₁
          cases hlink
          exact ⟨_, h₁.1, rfl⟩
      rw [node_eq hn, ok_bind, hparent, ← hlink]
      exact e₂
    · intro i hi
      rw [hinorder, mem_append, or_self, mem_append, Frame.inorder_fill] at hi
      cases f with
      | mk v side sib =>
        simp only [mem_append, mem_around_cons]
        cases side with
        | left =>
          simp only [Frame.before, Frame.after, mem_append, mem_cons,
            not_mem_nil, false_or] at hi
          tauto
        | right =>
          simp only [Frame.before, Frame.after, mem_append, mem_singleton,
            not_mem_nil, or_false] at hi
          tauto

end Nodes

end Bray.Collection
