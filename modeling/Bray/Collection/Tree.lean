/-
  File:      Bray/Collection/Tree.lean
  Subject:   THE ORDERED TREE (std/collection/ordered_tree*.bray): a balanced search tree in two
             buffers, one of links and heights, one of items; the free slots are a list through the
             links.

  The loops of the source walk links. Each is given a number of turns that it cannot exceed on a tree
  (`nodes.length + 1`: a longer walk would meet a node twice); where the turns run out the model says
  `endless`.
-/
import Bray.Collection.Memory

namespace Bray.Collection

structure OrderedTreeNode where
  parent : Option Nat
  left : Option Nat
  right : Option Nat
  height : Nat
  nextFree : Option Nat

inductive OrderedTreeSide where
  | root
  | left
  | right

structure OrderedTreeSearch where
  found : Option Nat
  parent : Option Nat
  side : OrderedTreeSide

abbrev Nodes := List OrderedTreeNode

structure OrderedTree (Item : Type) where
  nodes : Nodes
  items : List (Option Item)
  root : Option Nat
  free : Option Nat
  count : Nat

namespace OrderedTreeNode

/-- `ordered_tree_empty_node` -/
def empty : OrderedTreeNode := ⟨none, none, none, 0, none⟩

/-- What takes the place of a node with at most one child. -/
def child (n : OrderedTreeNode) : Option Nat :=
  match n.left with
  | some left => some left
  | none => n.right

end OrderedTreeNode

namespace Nodes

/-! ## 1. Balance -/

def node (nodes : Nodes) (index : Nat) : Except Panic OrderedTreeNode :=
  match nodes[index]? with
  | some n => .ok n
  | none => .error .outOfRange

/-- A field of a node is assigned. -/
def assign (nodes : Nodes) (index : Nat) (f : OrderedTreeNode → OrderedTreeNode) :
    Except Panic Nodes :=
  if index < nodes.length then .ok (nodes.modify index f) else .error .outOfRange

/-- `ordered_tree_node_height` -/
def linkHeight (nodes : Nodes) (link : Option Nat) : Except Panic Nat :=
  match link with
  | some present => do
    let n ← nodes.node present
    .ok n.height
  | none => .ok 0

def updateNodeHeight (nodes : Nodes) (index : Nat) : Except Panic Nodes := do
  let n ← nodes.node index
  let left ← nodes.linkHeight n.left
  let right ← nodes.linkHeight n.right
  nodes.assign index fun n => { n with height := max left right + 1 }

def connectNodeParent (nodes : Nodes) (root parent : Option Nat) (previous replacement : Nat) :
    Except Panic (Nodes × Option Nat) :=
  match parent with
  | some parentIndex => do
    let n ← nodes.node parentIndex
    let nodes ← match n.left with
      | some leftChild =>
        if leftChild = previous then
          nodes.assign parentIndex fun n => { n with left := some replacement }
        else nodes.assign parentIndex fun n => { n with right := some replacement }
      | none => nodes.assign parentIndex fun n => { n with right := some replacement }
    .ok (nodes, root)
  | none => .ok (nodes, some replacement)

/-- The parent of the node a link leads to is assigned. -/
def assignParent (nodes : Nodes) (link : Option Nat) (parent : Option Nat) : Except Panic Nodes :=
  match link with
  | some index => nodes.assign index fun n => { n with parent := parent }
  | none => .ok nodes

def rotateNodesLeft (nodes : Nodes) (root : Option Nat) (index : Nat) :
    Except Panic (Nodes × Nat × Option Nat) := do
  let n ← nodes.node index
  let parent := n.parent
  match n.right with
  | none => .error .leftRotation
  | some pivot => do
    let p ← nodes.node pivot
    let middle := p.left
    let (nodes, root) ← nodes.connectNodeParent root parent index pivot
    let nodes ← nodes.assign pivot fun n => { n with parent := parent }
    let nodes ← nodes.assign pivot fun n => { n with left := some index }
    let nodes ← nodes.assign index fun n => { n with parent := some pivot }
    let nodes ← nodes.assign index fun n => { n with right := middle }
    let nodes ← nodes.assignParent middle (some index)
    let nodes ← nodes.updateNodeHeight index
    let nodes ← nodes.updateNodeHeight pivot
    .ok (nodes, pivot, root)

def rotateNodesRight (nodes : Nodes) (root : Option Nat) (index : Nat) :
    Except Panic (Nodes × Nat × Option Nat) := do
  let n ← nodes.node index
  let parent := n.parent
  match n.left with
  | none => .error .rightRotation
  | some pivot => do
    let p ← nodes.node pivot
    let middle := p.right
    let (nodes, root) ← nodes.connectNodeParent root parent index pivot
    let nodes ← nodes.assign pivot fun n => { n with parent := parent }
    let nodes ← nodes.assign pivot fun n => { n with right := some index }
    let nodes ← nodes.assign index fun n => { n with parent := some pivot }
    let nodes ← nodes.assign index fun n => { n with left := middle }
    let nodes ← nodes.assignParent middle (some index)
    let nodes ← nodes.updateNodeHeight index
    let nodes ← nodes.updateNodeHeight pivot
    .ok (nodes, pivot, root)

/-- One turn of the loop of `ordered_tree_rebalance_nodes`: the root of the subtree after it. -/
def rebalanceTurn (nodes : Nodes) (root : Option Nat) (index : Nat) :
    Except Panic (Nodes × Nat × Option Nat) := do
  let nodes ← nodes.updateNodeHeight index
  let n ← nodes.node index
  let leftHeight ← nodes.linkHeight n.left
  let rightHeight ← nodes.linkHeight n.right
  if leftHeight > rightHeight + 1 then
    match n.left with
    | none => .error .leftBalance
    | some leftIndex => do
      let l ← nodes.node leftIndex
      let leftLeftHeight ← nodes.linkHeight l.left
      let leftRightHeight ← nodes.linkHeight l.right
      if leftRightHeight > leftLeftHeight then do
        let (nodes, _, root) ← nodes.rotateNodesLeft root leftIndex
        nodes.rotateNodesRight root index
      else nodes.rotateNodesRight root index
  else if rightHeight > leftHeight + 1 then
    match n.right with
    | none => .error .rightBalance
    | some rightIndex => do
      let r ← nodes.node rightIndex
      let rightLeftHeight ← nodes.linkHeight r.left
      let rightRightHeight ← nodes.linkHeight r.right
      if rightLeftHeight > rightRightHeight then do
        let (nodes, _, root) ← nodes.rotateNodesRight root rightIndex
        nodes.rotateNodesLeft root index
      else nodes.rotateNodesLeft root index
  else .ok (nodes, index, root)

def rebalanceNodes (nodes : Nodes) (root current : Option Nat) :
    Nat → Except Panic (Nodes × Option Nat)
  | 0 => .error .endless
  | turns + 1 =>
    match current with
    | none => .ok (nodes, root)
    | some index => do
      let (nodes, subtreeRoot, root) ← nodes.rebalanceTurn root index
      let n ← nodes.node subtreeRoot
      rebalanceNodes nodes root n.parent turns

end Nodes

variable {Item : Type}

namespace OrderedTree

def capacity (tree : OrderedTree Item) : Nat := tree.nodes.length

/-- How often a walk along links can turn. -/
def turns (tree : OrderedTree Item) : Nat := tree.nodes.length + 1

def rebalance (tree : OrderedTree Item) (start : Option Nat) : Except Panic (OrderedTree Item) := do
  let (nodes, root) ← tree.nodes.rebalanceNodes tree.root start tree.turns
  .ok { tree with nodes := nodes, root := root }

/-! ## 2. Storage -/

/-- `ordered_tree_nodes`, `nullable_buffer`: the buffers of a new tree. -/
def buffers (target : Target) (capacity : Nat) :
    Except MemoryLayoutError (Nodes × List (Option Item)) := do
  rawBuffer target.first capacity
  rawBuffer target.second capacity
  .ok (List.replicate capacity .empty, List.replicate capacity none)

/-- The loop of `ordered_tree_rebuild_free`, from `index` down. -/
def rebuildFreeLoop (items : List (Option Item)) :
    Nat → Nodes → Option Nat → Except Panic (Nodes × Option Nat)
  | 0, nodes, free => .ok (nodes, free)
  | index + 1, nodes, free => do
    if ← Slot.isPresent items index then rebuildFreeLoop items index nodes free
    else
      let nodes ← nodes.assign index fun n => { n with nextFree := free }
      rebuildFreeLoop items index nodes (some index)

def rebuildFree (tree : OrderedTree Item) : Except Panic (OrderedTree Item) := do
  let (nodes, free) ← rebuildFreeLoop tree.items tree.nodes.length tree.nodes none
  .ok { tree with nodes := nodes, free := free }

/-- `construct` -/
def construct (target : Target) (capacity : Nat) :
    Except Panic (Except MemoryLayoutError (OrderedTree Item)) :=
  match buffers target capacity with
  | .error e => .ok (.error e)
  | .ok (nodes, items) => do
    let tree ← rebuildFree ⟨nodes, items, none, none, 0⟩
    .ok (.ok tree)

/-- The loop of `ordered_tree_reallocate`: the occupied slots from `index` on are moved. -/
def moveLoop (sourceNodes : Nodes) (index : Nat) :
    Nat → List (Option Item) → Nodes → List (Option Item) → Except Panic (Nodes × List (Option Item))
  | 0, _, nodes, items => .ok (nodes, items)
  | remaining + 1, source, nodes, items => do
    let n ← sourceNodes.node index
    if ← Slot.isPresent source index then
      let (item, source) ← Slot.take source index
      if index < items.length ∧ index < nodes.length then
        moveLoop sourceNodes (index + 1) remaining source (nodes.set index n)
          (items.set index (some item))
      else .error .outOfRange
    else moveLoop sourceNodes (index + 1) remaining source nodes items

def reallocate (target : Target) (tree : OrderedTree Item) (capacity : Nat) :
    Except Panic (OrderedTree Item × Except MemoryLayoutError Unit) :=
  match buffers target capacity with
  | .error e => .ok (tree, .error e)
  | .ok (nodes, items) => do
    let (nodes, items) ← moveLoop tree.nodes 0 tree.capacity tree.items nodes items
    let tree ← rebuildFree { tree with nodes := nodes, items := items }
    .ok (tree, .ok ())

def reserve (target : Target) (tree : OrderedTree Item) (additional : Nat) :
    Except Panic (OrderedTree Item × Except MemoryLayoutError Unit) :=
  if additional ≤ tree.capacity - tree.count then .ok (tree, .ok ())
  else match growthCapacity target.usizeMax tree.count tree.capacity additional with
    | .error e => .ok (tree, .error e)
    | .ok capacity => tree.reallocate target capacity

/-- The last match of `ordered_tree_insert_at`: the link to the new node. -/
def attach (tree : OrderedTree Item) (index : Nat) (parent : Option Nat) :
    OrderedTreeSide → Except Panic (OrderedTree Item)
  | .root => .ok { tree with root := some index }
  | .left => match parent with
    | none => .error .leftInsertion
    | some parent => do
      let nodes ← tree.nodes.assign parent fun n => { n with left := some index }
      .ok { tree with nodes := nodes }
  | .right => match parent with
    | none => .error .rightInsertion
    | some parent => do
      let nodes ← tree.nodes.assign parent fun n => { n with right := some index }
      .ok { tree with nodes := nodes }

def insertAt (tree : OrderedTree Item) (item : Item) (search : OrderedTreeSearch) :
    Except Panic (OrderedTree Item × Nat) := do
  match tree.free with
  | none => .error .noFreeSlot
  | some index => do
    let n ← tree.nodes.node index
    let items ← Slot.write tree.items index item
    let nodes ← tree.nodes.assign index fun _ => ⟨search.parent, none, none, 1, none⟩
    let tree := { tree with nodes := nodes, items := items, free := n.nextFree,
                            count := tree.count + 1 }
    let tree ← tree.attach index search.parent search.side
    let tree ← tree.rebalance search.parent
    .ok (tree, index)

/-- The loops of `ordered_tree_minimum` and `ordered_tree_maximum`: along the links of one side. -/
def endmost (nodes : Nodes) (side : OrderedTreeNode → Option Nat) :
    Nat → Option Nat → Option Nat → Except Panic (Option Nat)
  | 0, _, _ => .error .endless
  | _ + 1, none, best => .ok best
  | turns + 1, some index, _ => do
    let n ← nodes.node index
    endmost nodes side turns (side n) (some index)

def minimum (tree : OrderedTree Item) (start : Option Nat) : Except Panic (Option Nat) :=
  endmost tree.nodes OrderedTreeNode.left tree.turns start none

def maximum (tree : OrderedTree Item) (start : Option Nat) : Except Panic (Option Nat) :=
  endmost tree.nodes OrderedTreeNode.right tree.turns start none

def swapItems (tree : OrderedTree Item) (left right : Nat) : Except Panic (OrderedTree Item) := do
  if left = right then .ok tree
  else
    let (leftItem, items) ← Slot.take tree.items left
    let (rightItem, items) ← Slot.take items right
    let items ← Slot.write items left rightItem
    let items ← Slot.write items right leftItem
    .ok { tree with items := items }

/-- The first part of `ordered_tree_remove_at`: an item between two subtrees changes place with its
    successor. -/
def chooseRemoved (tree : OrderedTree Item) (index : Nat) : Except Panic (OrderedTree Item × Nat) := do
  let n ← tree.nodes.node index
  match n.left, n.right with
  | some _, some right => do
    match ← tree.minimum (some right) with
    | none => .error .noMinimum
    | some minimum => do
      let tree ← tree.swapItems index minimum
      .ok (tree, minimum)
  | _, _ => .ok (tree, index)

/-- The link to the removed node is replaced by one to its child. -/
def unlink (tree : OrderedTree Item) (parent child : Option Nat) (removed : Nat) :
    Except Panic (OrderedTree Item) :=
  match parent with
  | none => .ok { tree with root := child }
  | some parent => do
    let n ← tree.nodes.node parent
    let nodes ← match n.left with
      | some left =>
        if left = removed then tree.nodes.assign parent fun n => { n with left := child }
        else tree.nodes.assign parent fun n => { n with right := child }
      | none => tree.nodes.assign parent fun n => { n with right := child }
    .ok { tree with nodes := nodes }

/-- The second part: the node is unlinked and goes to the front of the free list. -/
def detach (tree : OrderedTree Item) (removed : Nat) : Except Panic (OrderedTree Item × Item) := do
  let n ← tree.nodes.node removed
  let tree ← tree.unlink n.parent n.child removed
  let nodes ← tree.nodes.assignParent n.child n.parent
  let (item, items) ← Slot.take tree.items removed
  let nodes ← nodes.assign removed fun _ => { OrderedTreeNode.empty with nextFree := tree.free }
  let tree := { tree with nodes := nodes, items := items, free := some removed,
                          count := tree.count - 1 }
  let tree ← tree.rebalance n.parent
  .ok (tree, item)

def removeAt (tree : OrderedTree Item) (index : Nat) : Except Panic (OrderedTree Item × Item) := do
  let (tree, removed) ← tree.chooseRemoved index
  tree.detach removed

/-- `ordered_tree_take_for_iteration` -/
def takeForIteration (tree : OrderedTree Item) (index : Nat) :
    Except Panic (OrderedTree Item × Item) := do
  let (item, items) ← Slot.take tree.items index
  .ok ({ tree with items := items, count := tree.count - 1 }, item)

/-- The loop of `ordered_tree_clear_storage`, from `index` down. -/
def clearLoop : Nat → Nodes → List (Option Item) → Option Nat →
    Except Panic (Nodes × List (Option Item) × Option Nat)
  | 0, nodes, items, free => .ok (nodes, items, free)
  | index + 1, nodes, items, free => do
    let items ← Slot.discard items index
    let nodes ← nodes.assign index fun _ => { OrderedTreeNode.empty with nextFree := free }
    clearLoop index nodes items (some index)

def clear (tree : OrderedTree Item) : Except Panic (OrderedTree Item) := do
  let (nodes, items, free) ← clearLoop tree.nodes.length tree.nodes tree.items none
  .ok ⟨nodes, items, none, free, 0⟩

/-! ## 3. Navigation -/

/-- The loop of `ordered_tree_search`; `compare` is `compare_key` with the key looked for. -/
def searchLoop (tree : OrderedTree Item) (compare : Item → Ordering) :
    Nat → Option Nat → Option Nat → OrderedTreeSide → Except Panic OrderedTreeSearch
  | 0, _, _, _ => .error .endless
  | _ + 1, none, parent, side => .ok ⟨none, parent, side⟩
  | turns + 1, some index, _, side => do
    let item ← Slot.get tree.items index
    match compare item with
    | .lt => do
      let n ← tree.nodes.node index
      searchLoop tree compare turns n.right (some index) .right
    | .eq => .ok ⟨some index, some index, side⟩
    | .gt => do
      let n ← tree.nodes.node index
      searchLoop tree compare turns n.left (some index) .left

def search (tree : OrderedTree Item) (compare : Item → Ordering) : Except Panic OrderedTreeSearch :=
  searchLoop tree compare tree.turns tree.root none .root

/-- The loop of `ordered_tree_bound` -/
def boundLoop (tree : OrderedTree Item) (compare : Item → Ordering) (inclusive : Bool) :
    Nat → Option Nat → Option Nat → Except Panic (Option Nat)
  | 0, _, _ => .error .endless
  | _ + 1, none, candidate => .ok candidate
  | turns + 1, some index, candidate => do
    let item ← Slot.get tree.items index
    match compare item with
    | .lt => do
      let n ← tree.nodes.node index
      boundLoop tree compare inclusive turns n.right candidate
    | .eq =>
      if inclusive then .ok (some index)
      else do
        let n ← tree.nodes.node index
        boundLoop tree compare inclusive turns n.right candidate
    | .gt => do
      let n ← tree.nodes.node index
      boundLoop tree compare inclusive turns n.left (some index)

def bound (tree : OrderedTree Item) (compare : Item → Ordering) (inclusive : Bool) :
    Except Panic (Option Nat) :=
  boundLoop tree compare inclusive tree.turns tree.root none

/-- The second loop of `ordered_tree_successor`: up to the first parent whose left child this is. -/
def climb (nodes : Nodes) : Nat → Nat → Option Nat → Except Panic (Option Nat)
  | 0, _, _ => .error .endless
  | _ + 1, _, none => .ok none
  | turns + 1, current, some parent => do
    let n ← nodes.node parent
    if n.left = some current then .ok (some parent)
    else climb nodes turns parent n.parent

def successor (tree : OrderedTree Item) (index : Nat) : Except Panic (Option Nat) := do
  let n ← tree.nodes.node index
  match n.right with
  | some right => tree.minimum (some right)
  | none => climb tree.nodes tree.turns index n.parent

end OrderedTree

end Bray.Collection
