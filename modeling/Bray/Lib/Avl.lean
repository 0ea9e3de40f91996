/-
  File:      Bray/Lib/Avl.lean
  Subject:   HEIGHT-BALANCED TREES AND PATHS IN THEM. Nothing of this repository is named here.

  A tree with a hole is a path: the frames from the hole up to the root (`Frame`, `plug`). What an
  insertion or a removal does to a balanced tree is to put a subtree whose height differs by at most
  one into a hole, and to restore the balance frame by frame on the way up (`zip`):

  * `balance` -- single or double rotation of one node, `balanced_balance`;
  * `balanced_zip` -- the tree that comes out is balanced;
  * `inorder_plug`, `inorder_zip` -- its elements in order are those of the tree that went in.
-/
import Mathlib.Data.List.Basic
import Mathlib.Order.Lattice

namespace Bray.Lib

inductive AvlTree (α : Type) where
  | leaf
  | node (left : AvlTree α) (value : α) (right : AvlTree α)

variable {α : Type}

namespace AvlTree

def height : AvlTree α → Nat
  | leaf => 0
  | node l _ r => max l.height r.height + 1

def inorder : AvlTree α → List α
  | leaf => []
  | node l x r => l.inorder ++ x :: r.inorder

/-- Sibling heights differ by at most one. -/
def Balanced : AvlTree α → Prop
  | leaf => True
  | node l _ r => l.Balanced ∧ r.Balanced ∧ l.height ≤ r.height + 1 ∧ r.height ≤ l.height + 1

@[simp] theorem height_leaf : (leaf : AvlTree α).height = 0 := rfl

@[simp] theorem height_node (l : AvlTree α) (x : α) (r : AvlTree α) :
  (node l x r).height = max l.height r.height + 1 := rfl

@[simp] theorem inorder_leaf : (leaf : AvlTree α).inorder = [] := rfl

@[simp] theorem inorder_node (l : AvlTree α) (x : α) (r : AvlTree α) :
  (node l x r).inorder = l.inorder ++ x :: r.inorder := rfl

theorem balanced_node {l : AvlTree α} {x : α} {r : AvlTree α} : (node l x r).Balanced ↔
  l.Balanced ∧ r.Balanced ∧ l.height ≤ r.height + 1 ∧ r.height ≤ l.height + 1 := Iff.rfl

/-! ## 1. Rotations -/

def rotateLeft : AvlTree α → AvlTree α
  | node l x (node m y r) => node (node l x m) y r
  | t => t

def rotateRight : AvlTree α → AvlTree α
  | node (node l y m) x r => node l y (node m x r)
  | t => t

/-- A node whose subtrees differ by at most two in height, rotated where they differ by two. -/
def balance (l : AvlTree α) (x : α) (r : AvlTree α) : AvlTree α :=
  if l.height > r.height + 1 then
    match l with
    | leaf => node l x r
    | node ll _ lr =>
      if lr.height > ll.height then rotateRight (node (rotateLeft l) x r)
      else rotateRight (node l x r)
  else if r.height > l.height + 1 then
    match r with
    | leaf => node l x r
    | node rl _ rr =>
      if rl.height > rr.height then rotateLeft (node l x (rotateRight r))
      else rotateLeft (node l x r)
  else node l x r

theorem inorder_rotateLeft (t : AvlTree α) : t.rotateLeft.inorder = t.inorder := by
  match t with
  | leaf => rfl
  | node l x leaf => rfl
  | node l x (node m y r) => simp [rotateLeft]

theorem inorder_rotateRight (t : AvlTree α) : t.rotateRight.inorder = t.inorder := by
  match t with
  | leaf => rfl
  | node leaf x r => rfl
  | node (node l y m) x r => simp [rotateRight]

theorem inorder_balance (l : AvlTree α) (x : α) (r : AvlTree α) :
    (balance l x r).inorder = l.inorder ++ x :: r.inorder := by
  unfold balance
  split
  · split
    · rfl
    · split
      · rw [inorder_rotateRight, inorder_node, inorder_rotateLeft]
      · rw [inorder_rotateRight, inorder_node]
  · split
    · split
      · rfl
      · split
        · rw [inorder_rotateLeft, inorder_node, inorder_rotateRight]
        · rw [inorder_rotateLeft, inorder_node]
    · rfl

/-- **A node whose subtrees differ by at most two is balanced**, and is at most one higher than the
  higher of them. -/
theorem balanced_balance {l r : AvlTree α} {x : α} (hl : l.Balanced) (hr : r.Balanced)
    (hlr : l.height ≤ r.height + 2) (hrl : r.height ≤ l.height + 2) :
    (balance l x r).Balanced ∧ max l.height r.height ≤ (balance l x r).height ∧
      (balance l x r).height ≤ max l.height r.height + 1 ∧ (l.height ≤ r.height + 1 → r.height ≤ l.height + 1 →
        (balance l x r).height = max l.height r.height + 1) := by
  unfold balance
  split
  · rename_i hheavy
    match l, hl with
    | leaf, _ => simp at hheavy
    | node ll y lr, hl =>
      obtain ⟨hll, hlr', h₁, h₂⟩ := hl
      simp only [height_node] at hheavy hlr hrl ⊢
      split
      · rename_i hinner
        match lr, hlr' with
        | leaf, _ => simp at hinner
        | node lrl z lrr, hlr' =>
          obtain ⟨ha, hb, h₃, h₄⟩ := hlr'
          simp only [height_node] at hheavy hlr hrl h₁ h₂ hinner ⊢
          simp only [rotateLeft, rotateRight, balanced_node, height_node]
          refine ⟨⟨⟨hll, ha, ?_, ?_⟩, ⟨hb, hr, ?_, ?_⟩, ?_, ?_⟩, ?_, ?_, ?_⟩ <;> omega
      · simp only [rotateRight, balanced_node, height_node]
        refine ⟨⟨hll, ⟨hlr', hr, ?_, ?_⟩, ?_, ?_⟩, ?_, ?_, ?_⟩ <;> omega
  · split
    · rename_i hheavy
      match r, hr with
      | leaf, _ => simp at hheavy
      | node rl y rr, hr =>
        obtain ⟨hrl', hrr, h₁, h₂⟩ := hr
        simp only [height_node] at hheavy hlr hrl ⊢
        split
        · rename_i hinner
          match rl, hrl' with
          | leaf, _ => simp at hinner
          | node rll z rlr, hrl' =>
            obtain ⟨ha, hb, h₃, h₄⟩ := hrl'
            simp only [height_node] at hheavy hlr hrl h₁ h₂ hinner ⊢
            simp only [rotateLeft, rotateRight, balanced_node, height_node]
            refine ⟨⟨⟨hl, ha, ?_, ?_⟩, ⟨hb, hrr, ?_, ?_⟩, ?_, ?_⟩, ?_, ?_, ?_⟩ <;> omega
        · simp only [rotateLeft, balanced_node, height_node]
          refine ⟨⟨⟨hl, hrl', ?_, ?_⟩, hrr, ?_, ?_⟩, ?_, ?_, ?_⟩ <;> omega
    · simp only [balanced_node, height_node]
      refine ⟨⟨hl, hr, ?_, ?_⟩, ?_, ?_, fun _ _ => trivial⟩ <;> omega

end AvlTree

/-! ## 2. Paths -/

inductive Side where
  | left
  | right

/-- A node with a hole in place of one subtree. -/
structure Frame (α : Type) where
  value : α
  side : Side
  sibling : AvlTree α

namespace Frame

def fill (f : Frame α) (t : AvlTree α) : AvlTree α :=
  match f.side with
  | .left => .node t f.value f.sibling
  | .right => .node f.sibling f.value t

def balance (f : Frame α) (t : AvlTree α) : AvlTree α :=
  match f.side with
  | .left => AvlTree.balance t f.value f.sibling
  | .right => AvlTree.balance f.sibling f.value t

/-- What comes before the hole, in order. -/
def before (f : Frame α) : List α :=
  match f.side with
  | .left => []
  | .right => f.sibling.inorder ++ [f.value]

/-- What comes after it. -/
def after (f : Frame α) : List α :=
  match f.side with
  | .left => f.value :: f.sibling.inorder
  | .right => []

theorem inorder_fill (f : Frame α) (t : AvlTree α) : (f.fill t).inorder = f.before ++ t.inorder ++ f.after := by
  cases f with
  | mk x side sib => cases side <;> simp [fill, before, after]

theorem inorder_balance (f : Frame α) (t : AvlTree α) :
    (f.balance t).inorder = f.before ++ t.inorder ++ f.after := by
  cases f with
  | mk x side sib => cases side <;> simp [balance, before, after, AvlTree.inorder_balance]

theorem balanced_of_fill {f : Frame α} {t : AvlTree α} (h : (f.fill t).Balanced) : t.Balanced := by
  cases f with
  | mk x side sib =>
    cases side with
    | left => exact h.1
    | right => exact h.2.1

/-- **One frame**: a subtree whose height differs by at most one goes in, one comes out. -/
theorem balanced_balance {f : Frame α} {t t₀ : AvlTree α} (h : (f.fill t₀).Balanced) (ht : t.Balanced)
    (h₁ : t.height ≤ t₀.height + 1) (h₂ : t₀.height ≤ t.height + 1) :
    (f.balance t).Balanced ∧ (f.balance t).height ≤ (f.fill t₀).height + 1 ∧
      (f.fill t₀).height ≤ (f.balance t).height + 1 := by
  cases f with
  | mk x side sib =>
    cases side with
    | left =>
      obtain ⟨-, hs, h₃, h₄⟩ : _ ∧ sib.Balanced ∧ t₀.height ≤ sib.height + 1 ∧ sib.height ≤ t₀.height + 1 := h
      obtain ⟨hb, hlow, hhigh, hexact⟩ :=
        AvlTree.balanced_balance (x := x) ht hs (by omega) (by omega)
      simp only [fill, balance, AvlTree.height_node]
      refine ⟨hb, ?_, ?_⟩ <;> omega
    | right =>
      obtain ⟨hs, -, h₃, h₄⟩ : sib.Balanced ∧ _ ∧ sib.height ≤ t₀.height + 1 ∧ t₀.height ≤ sib.height + 1 := h
      obtain ⟨hb, hlow, hhigh, hexact⟩ :=
        AvlTree.balanced_balance (x := x) hs ht (by omega) (by omega)
      simp only [fill, balance, AvlTree.height_node]
      refine ⟨hb, ?_, ?_⟩ <;> omega

end Frame

/-- The frames from a hole to the root, the innermost first. -/
abbrev Path (α : Type) := List (Frame α)

namespace Path

/-- The whole tree, with a subtree in the hole. -/
def plug : Path α → AvlTree α → AvlTree α
  | [], t => t
  | f :: p, t => plug p (f.fill t)

/-- The same, restoring the balance on the way up. -/
def zip : Path α → AvlTree α → AvlTree α
  | [], t => t
  | f :: p, t => zip p (f.balance t)

def before : Path α → List α
  | [] => []
  | f :: p => before p ++ f.before

def after : Path α → List α
  | [] => []
  | f :: p => f.after ++ after p

theorem inorder_plug (p : Path α) (t : AvlTree α) : (plug p t).inorder = before p ++ t.inorder ++ after p := by
  induction p generalizing t with
  | nil => simp [plug, before, after]
  | cons f p ih => simp [plug, before, after, ih, Frame.inorder_fill]

theorem inorder_zip (p : Path α) (t : AvlTree α) : (zip p t).inorder = before p ++ t.inorder ++ after p := by
  induction p generalizing t with
  | nil => simp [zip, before, after]
  | cons f p ih => simp [zip, before, after, ih, Frame.inorder_balance]

theorem balanced_of_plug {p : Path α} {t : AvlTree α} (h : (plug p t).Balanced) : t.Balanced := by
  induction p generalizing t with
  | nil => exact h
  | cons f p ih => exact Frame.balanced_of_fill (ih h)

/-- **The balance is restored on the way up.** -/
theorem balanced_zip {p : Path α} {t t₀ : AvlTree α} (h : (plug p t₀).Balanced) (ht : t.Balanced)
    (h₁ : t.height ≤ t₀.height + 1) (h₂ : t₀.height ≤ t.height + 1) : (zip p t).Balanced := by
  induction p generalizing t t₀ with
  | nil => exact ht
  | cons f p ih =>
    obtain ⟨hb, hhigh, hlow⟩ := Frame.balanced_balance (balanced_of_plug h) ht h₁ h₂
    exact ih h hb hhigh hlow

theorem plug_append (p q : Path α) (t : AvlTree α) : plug (p ++ q) t = plug q (plug p t) := by
  induction p generalizing t with
  | nil => rfl
  | cons f p ih => exact ih (f.fill t)

theorem before_append (p q : Path α) : before (p ++ q) = before q ++ before p := by
  induction p with
  | nil => simp [before]
  | cons f p ih => simp [before, ih]

theorem after_append (p q : Path α) : after (p ++ q) = after p ++ after q := by
  induction p with
  | nil => simp [after]
  | cons f p ih => simp [after, ih]

/-- Every element of a tree is at the end of a path. -/
theorem exists_of_mem {t : AvlTree α} {x : α} (h : x ∈ t.inorder) : ∃ p l r, t = plug p (.node l x r) := by
  induction t with
  | leaf => cases h
  | node l y r ihl ihr =>
    rcases List.mem_append.mp h with h | h
    · obtain ⟨p, l', r', rfl⟩ := ihl h
      exact ⟨p ++ [⟨y, .left, r⟩], l', r', by rw [plug_append]; rfl⟩
    · rcases List.mem_cons.mp h with rfl | h
      · exact ⟨[], l, r, rfl⟩
      · obtain ⟨p, l', r', rfl⟩ := ihr h
        exact ⟨p ++ [⟨y, .right, l⟩], l', r', by rw [plug_append]; rfl⟩

end Path

end Bray.Lib
