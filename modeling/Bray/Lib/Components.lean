/-
  File:      Bray/Lib/Components.lean
  Subject:   STRONGLY CONNECTED COMPONENTS in two passes over a directed graph: a depth-first walk
    that lists the nodes as they are finished and turns the edges round, and a collection
    backwards along the edges, from the node finished last on. Nothing of this repository
    is named here.

  * the walk keeps `Walked`: what is finished has no edge out of what is visited, and of every
    finished node what was finished before it is either reached from it or has no edge to it or to
    what is reached from it (`Postordered`);
  * the collection keeps a set of visited nodes that edges never lead into from outside
    (`Collected`), so a component is what reaches its root among the rest;
  * **`components_spec`** -- the components part what is reached from the roots, two nodes are in one
    component exactly when they reach each other, and the components stand in the order of the edges
    between them.
-/
import Mathlib

namespace Bray.Lib

open List


variable {N : Type} [DecidableEq N]

/-! ## 1. The two passes -/

/-- What the walk has seen: the visited nodes, the edges turned round and the finished nodes. -/
structure Walk (N : Type) where
  visited : List N
  reverse : List (N × N)
  order : List N

/-- The walk from the stack of nodes with the successors that are left. -/
def walkFrom (successors : N → List N) : Nat → List (N × List N) → Walk N → Walk N
  | 0, _, walk => walk
  | _ + 1, [], walk => walk
  | fuel + 1, (node, []) :: stack, walk =>
    walkFrom successors fuel stack { walk with order := walk.order ++ [node] }
  | fuel + 1, (node, child :: children) :: stack, walk =>
    let walk := { walk with reverse := walk.reverse ++ [(child, node)] }
    if child ∈ walk.visited then walkFrom successors fuel ((node, children) :: stack) walk
    else walkFrom successors fuel ((child, successors child) :: (node, children) :: stack)
      { walk with visited := child :: walk.visited }

/-- The first pass, over all roots. -/
def walkAll (successors : N → List N) (fuel : Nat) (roots : List N) : Walk N :=
  roots.foldl (fun walk root =>
    if root ∈ walk.visited then walk
    else walkFrom successors fuel [(root, successors root)]
      { walk with visited := root :: walk.visited }) ⟨[], [], []⟩

/-- The nodes with an edge to the node, in the order the walk found them. -/
def Walk.predecessors (walk : Walk N) (node : N) : List N :=
  (walk.reverse.filter fun edge => edge.1 = node).map Prod.snd

/-- The unvisited among the predecessors are marked and wait on the stack. -/
def pushUnvisited (stack visited : List N) : List N → List N × List N
  | [] => (stack, visited)
  | node :: nodes =>
    if node ∈ visited then pushUnvisited stack visited nodes
    else pushUnvisited (node :: stack) (node :: visited) nodes

/-- One component: the stack is taken down and its predecessors put on. -/
def collect (predecessors : N → List N) : Nat → List N → List N → List N → List N × List N
  | 0, _, visited, component => (component, visited)
  | _ + 1, [], visited, component => (component, visited)
  | fuel + 1, node :: stack, visited, component =>
    let (stack, visited) := pushUnvisited stack visited (predecessors node)
    collect predecessors fuel stack visited (component ++ [node])

/-- The second pass, over the nodes as they were finished, the last one first. -/
def collectAll (predecessors : N → List N) (fuel : Nat) (order : List N) :
  List N × List (List N) :=
  order.foldl (fun (visited, components) root =>
    if root ∈ visited then (visited, components)
    else
      let (component, visited) := collect predecessors fuel [root] (root :: visited) []
      (visited, components ++ [component])) ([], [])

/-- **The strongly connected components** of what is reached from the roots. -/
def stronglyConnectedComponents (successors : N → List N) (fuel : Nat) (roots : List N) :
  List (List N) :=
  let walk := walkAll successors fuel roots
  (collectAll walk.predecessors fuel walk.order.reverse).2

/-- One node reaches another along edges. -/
def Reaches (successors : N → List N) : N → N → Prop :=
  Relation.ReflTransGen fun x y => y ∈ successors x

variable {successors : N → List N}

/-! ## 2. The walk -/

omit [DecidableEq N] in
/-- Of every finished node: what was finished before it is reached from it, or has no edge to it
  nor to what is. -/
def Postordered (successors : N → List N) (order : List N) : Prop :=
  ∀ before node after, order = before ++ node :: after →
    ∃ earlier below, before = earlier ++ below ∧ (∀ x ∈ below, Reaches successors node x) ∧
      ∀ x ∈ earlier, ∀ y ∈ successors x, y ≠ node ∧ y ∉ below

/-- The nodes on the stack: the successors already seen, what was finished before the node was
  found, and the nodes below it, which reach it. -/
def Active (successors : N → List N) (walk : Walk N) : List (N × List N) → Prop
  | [] => True
  | (node, rest) :: stack =>
    (∃ seen, successors node = seen ++ rest ∧ ∀ x ∈ seen, x ∈ walk.visited ∧ (x, node) ∈ walk.reverse) ∧
    (∃ earlier below, walk.order = earlier ++ below ∧ (∀ x ∈ below, Reaches successors node x) ∧
      ∀ x ∈ earlier, ∀ y ∈ successors x, y ∈ earlier ∨ y ∈ stack.map Prod.fst) ∧
    (∀ x ∈ stack.map Prod.fst, Reaches successors x node) ∧ Active successors walk stack

/-- **The invariant of the walk.** -/
structure Walked (successors : N → List N) (stack : List (N × List N)) (walk : Walk N) : Prop where
  once : (stack.map Prod.fst ++ walk.order).Nodup
  visited : ∀ x, x ∈ walk.visited ↔ x ∈ stack.map Prod.fst ∨ x ∈ walk.order
  finished : ∀ x ∈ walk.order, ∀ y ∈ successors x, y ∈ walk.visited ∧ (y, x) ∈ walk.reverse
  edges : ∀ edge ∈ walk.reverse, edge.1 ∈ successors edge.2 ∧ edge.2 ∈ walk.visited
  active : Active successors walk stack
  postordered : Postordered successors walk.order

omit [DecidableEq N] in
theorem Postordered.append {order : List N} {node : N} (h : Postordered successors order)
    (last : ∃ earlier below, order = earlier ++ below ∧ (∀ x ∈ below, Reaches successors node x) ∧
      ∀ x ∈ earlier, ∀ y ∈ successors x, y ≠ node ∧ y ∉ below) : Postordered successors (order ++ [node]) := by
  intro before x after e
  rcases eq_nil_or_concat after with rfl | ⟨after, y, rfl⟩
  · obtain ⟨rfl, e⟩ := append_inj' e rfl
    obtain rfl : node = x := by simpa using e
    exact last
  · rw [concat_eq_append, ← cons_append, ← append_assoc] at e
    obtain ⟨rfl, _⟩ := append_inj' e rfl
    exact h before x after rfl

omit [DecidableEq N] in
/-- More is visited and recorded, and what was finished since is reached from the stack. -/
theorem Active.mono (walk : Walk N) {walk' : Walk N} {stack : List (N × List N)} (more : List N)
    (visited : ∀ x ∈ walk.visited, x ∈ walk'.visited)
    (reverse : ∀ x ∈ walk.reverse, x ∈ walk'.reverse) (order : walk'.order = walk.order ++ more)
    (reached : ∀ x ∈ stack.map Prod.fst, ∀ y ∈ more, Reaches successors x y)
    (h : Active successors walk stack) : Active successors walk' stack := by
  induction stack with
  | nil => trivial
  | cons entry stack ih =>
    obtain ⟨node, rest⟩ := entry
    obtain ⟨⟨seen, split, known⟩, ⟨earlier, below, finished, under, out⟩, above, active⟩ := h
    refine ⟨⟨seen, split, fun x hx => ⟨visited _ (known x hx).1, reverse _ (known x hx).2⟩⟩,
      ⟨earlier, below ++ more, by rw [order, finished, append_assoc], ?_, out⟩, above,
      ih (fun x hx => reached x (.tail _ hx)) active⟩
    intro x hx
    rcases mem_append.mp hx with hx | hx
    · exact under x hx
    · exact reached node (.head _) x hx

omit [DecidableEq N] in
theorem Walked.finish {node : N} {stack : List (N × List N)} {walk : Walk N}
    (h : Walked successors ((node, []) :: stack) walk) :
    Walked successors stack { walk with order := walk.order ++ [node] } := by
  obtain ⟨⟨seen, split, known⟩, ⟨earlier, below, order, under, out⟩, above, active⟩ := h.active
  have once := h.once
  obtain ⟨fresh, once⟩ := nodup_cons.mp once
  have apart := (nodup_append.mp once).2.2
  constructor
  · rw [← append_assoc]
    exact nodup_append.mpr ⟨once, by simp, fun x hx y hy e => fresh (by
      obtain rfl : y = node := by simpa using hy
      exact e ▸ hx)⟩
  · intro x
    rw [h.visited]
    simp only [map_cons, mem_cons, mem_append, not_mem_nil, or_false]
    tauto
  · intro x hx
    rcases mem_append.mp hx with hx | hx
    · exact h.finished x hx
    · obtain rfl : x = node := by simpa using hx
      intro y hy
      exact known y (by simpa [split] using hy)
  · exact h.edges
  · have later : ∀ x ∈ stack.map Prod.fst, ∀ y ∈ [node], Reaches successors x y := by
      intro x hx y hy
      obtain rfl : y = node := by simpa using hy
      exact above x hx
    have kept : Active successors walk stack := active
    exact Active.mono walk [node] (fun _ hx => hx) (fun _ hx => hx) rfl later kept
  · refine h.postordered.append ⟨earlier, below, order, under, fun x hx y hy => ?_⟩
    have nodup : (earlier ++ below).Nodup := order ▸ (nodup_append.mp once).2.1
    rcases out x hx y hy with early | waits
    · exact ⟨fun e => fresh (mem_append_right _ (order ▸ mem_append_left _ (e ▸ early))),
        fun hb => (nodup_append.mp nodup).2.2 y early y hb rfl⟩
    · exact ⟨fun e => fresh (mem_append_left _ (e ▸ waits)),
        fun hb => apart y waits y (order ▸ mem_append_right _ hb) rfl⟩

omit [DecidableEq N] in
/-- The names of the stack stay, only the successors left of one of them change. -/
theorem map_fst_pass (top : List (N × List N)) (node : N) (children children' : List N)
    (stack : List (N × List N)) : (top ++ (node, children) :: stack).map Prod.fst =
      (top ++ (node, children') :: stack).map Prod.fst := by
  simp

omit [DecidableEq N] in
theorem Active.pass (walk walk' : Walk N) {node child : N} {children : List N}
    {stack : List (N × List N)} (visited : ∀ x ∈ walk.visited, x ∈ walk'.visited)
    (reverse : ∀ x ∈ walk.reverse, x ∈ walk'.reverse) (order : walk'.order = walk.order)
    (known : child ∈ walk'.visited) (edge : (child, node) ∈ walk'.reverse)
    (top : List (N × List N)) (h : Active successors walk (top ++ (node, child :: children) :: stack)) :
    Active successors walk' (top ++ (node, children) :: stack) := by
  induction top with
  | nil =>
    obtain ⟨⟨seen, split, old⟩, finished, above, active⟩ := h
    refine ⟨⟨seen ++ [child], by simpa using split, fun x hx => ?_⟩, by rwa [order], above, ?_⟩
    · rcases mem_append.mp hx with hx | hx
      · exact ⟨visited _ (old x hx).1, reverse _ (old x hx).2⟩
      · obtain rfl : x = child := by simpa using hx
        exact ⟨known, edge⟩
    · exact active.mono walk [] visited reverse (by rw [order, append_nil]) nofun
  | cons entry top ih =>
    obtain ⟨⟨seen, split, old⟩, finished, above, active⟩ := h
    simp only [append_eq, map_fst_pass top node (child :: children) children]
      at finished above
    exact ⟨⟨seen, split, fun x hx => ⟨visited _ (old x hx).1, reverse _ (old x hx).2⟩⟩,
      by rwa [order], above, ih active⟩

omit [DecidableEq N] in
theorem Walked.pass {node child : N} {children : List N} (top : List (N × List N))
    {stack : List (N × List N)} {walk : Walk N}
    (h : Walked successors (top ++ (node, child :: children) :: stack) walk)
    (edge : child ∈ successors node) (visited : child ∈ walk.visited) :
    Walked successors (top ++ (node, children) :: stack)
      { walk with reverse := walk.reverse ++ [(child, node)] } := by
  have names := map_fst_pass top node children (child :: children) stack
  have known := h.visited
  refine ⟨?_, ?_, fun x hx y hy => ?_, fun e he => ?_, ?_, h.postordered⟩
  · rw [names]
    exact h.once
  · intro x
    rw [names]
    exact h.visited x
  · exact ⟨(h.finished x hx y hy).1, mem_append_left _ (h.finished x hx y hy).2⟩
  · rcases mem_append.mp he with he | he
    · exact h.edges e he
    · obtain rfl : e = (child, node) := by simpa using he
      exact ⟨edge, (known node).mpr (.inl (by simp))⟩
  · have active : Active successors walk (top ++ (node, child :: children) :: stack) := h.active
    let walk' : Walk N := { walk with reverse := walk.reverse ++ [(child, node)] }
    refine Active.pass walk walk' (fun _ hx => hx) (fun _ hx => ?_) rfl visited ?_ top active
    · exact mem_append_left _ hx
    · exact mem_append_right _ (.head _)

omit [DecidableEq N] in
/-- An unvisited node is put on the stack: what is finished by then has no edge to it. -/
theorem Walked.push {child : N} {stack : List (N × List N)} {walk : Walk N}
    (h : Walked successors stack walk) (unvisited : child ∉ walk.visited)
    (reached : ∀ x ∈ stack.map Prod.fst, Reaches successors x child) :
    Walked successors ((child, successors child) :: stack) { walk with visited := child :: walk.visited } := by
  have fresh : child ∉ stack.map Prod.fst ++ walk.order := fun hx =>
    unvisited ((h.visited child).mpr (mem_append.mp hx))
  constructor
  · exact nodup_cons.mpr ⟨fresh, h.once⟩
  · intro x
    rw [mem_cons, h.visited, map_cons, mem_cons, or_assoc]
  · intro x hx y hy
    exact ⟨.tail _ (h.finished x hx y hy).1, (h.finished x hx y hy).2⟩
  · exact fun edge he => ⟨(h.edges edge he).1, .tail _ (h.edges edge he).2⟩
  · refine ⟨⟨[], rfl, nofun⟩, ⟨walk.order, [], (append_nil _).symm, nofun, fun x hx y hy => ?_⟩, reached, ?_⟩
    · exact ((h.visited y).mp (h.finished x hx y hy).1).symm
    · have kept : Active successors walk stack := h.active
      exact Active.mono walk [] (fun _ hx => .tail _ hx) (fun _ hx => hx)
        (append_nil _).symm nofun kept
  · exact h.postordered

/-! ### The walk comes to an end -/

/-- What is left to do: the unvisited nodes and what is on the stack, with their successors. -/
def remaining (successors : N → List N) (nodes : Finset N) (stack : List (N × List N))
  (walk : Walk N) : Nat :=
  (nodes.filter (· ∉ walk.visited)).sum (fun x => (successors x).length + 1) +
    (stack.map fun entry => entry.2.length + 1).sum

theorem remaining_push {nodes : Finset N} {child : N} (hc : child ∈ nodes)
    (stack : List (N × List N)) {walk : Walk N} (unvisited : child ∉ walk.visited) :
    remaining successors nodes ((child, successors child) :: stack)
      { walk with visited := child :: walk.visited } = remaining successors nodes stack walk := by
  have erased : nodes.filter (· ∉ child :: walk.visited) = (nodes.filter (· ∉ walk.visited)).erase child := by
    ext x
    simp only [Finset.mem_filter, mem_cons, not_or, Finset.mem_erase]
    tauto
  have mem : child ∈ nodes.filter (· ∉ walk.visited) := Finset.mem_filter.mpr ⟨hc, unvisited⟩
  simp only [remaining, erased, map_cons, sum_cons]
  rw [← Finset.sum_erase_add _ _ mem]
  omega

/-- **The walk from a stack finishes everything on it.** -/
theorem walked_walkFrom {nodes : Finset N} (closed : ∀ x ∈ nodes, ∀ y ∈ successors x, y ∈ nodes)
    (fuel : Nat) (stack : List (N × List N)) (walk : Walk N) (h : Walked successors stack walk)
    (inside : ∀ x ∈ walk.visited, x ∈ nodes) (enough : remaining successors nodes stack walk < fuel) :
    Walked successors [] (walkFrom successors fuel stack walk) ∧
      (∀ x ∈ (walkFrom successors fuel stack walk).visited, x ∈ nodes) ∧
      ∀ x ∈ walk.visited, x ∈ (walkFrom successors fuel stack walk).visited := by
  induction fuel generalizing stack walk with
  | zero => exact absurd enough (Nat.not_lt_zero _)
  | succ fuel ih =>
    match stack with
    | [] => exact ⟨h, inside, fun _ hx => hx⟩
    | (node, []) :: stack =>
      refine ih stack _ h.finish inside ?_
      simp only [remaining, map_cons, sum_cons, length_nil] at enough ⊢
      omega
    | (node, child :: children) :: stack =>
      have hn : node ∈ nodes := inside node ((h.visited node).mpr (.inl (.head _)))
      obtain ⟨⟨seen, split, _⟩, _, above, _⟩ := h.active
      have edge : child ∈ successors node := by simp [split]
      simp only [walkFrom]
      split
      · next visited =>
        refine ih _ _ (h.pass [] edge visited) inside ?_
        simp only [remaining, map_cons, sum_cons, length_cons] at enough ⊢
        omega
      · next unvisited =>
        have reached : ∀ x ∈ node :: stack.map Prod.fst, Reaches successors x child := by
          intro x hx
          rcases mem_cons.mp hx with rfl | hx
          · exact Relation.ReflTransGen.single edge
          · exact (above x hx).tail edge
        have pushed := h.push unvisited reached
        have hc : child ∈ nodes := closed node hn child edge
        obtain ⟨walked, within, kept⟩ := ih _ _
          (pushed.pass [(child, successors child)] edge (.head _))
          (forall_mem_cons.mpr ⟨hc, inside⟩) (by
            have same := @remaining_push _ _ successors _ _ hc ((node, children) :: stack) _
              unvisited
            simp only [remaining, singleton_append, map_cons, sum_cons, length_cons] at enough same ⊢
            omega)
        exact ⟨walked, within, fun x hx => kept x (.tail _ hx)⟩

/-- What a walk over all nodes takes. -/
def walkWork (successors : N → List N) (nodes : Finset N) : Nat :=
  nodes.sum fun x => (successors x).length + 1

/-- **The first pass finishes all roots.** -/
theorem walked_walkAll {nodes : Finset N} (closed : ∀ x ∈ nodes, ∀ y ∈ successors x, y ∈ nodes)
    {fuel : Nat} (enough : walkWork successors nodes < fuel) (roots : List N)
    (inside : ∀ x ∈ roots, x ∈ nodes) : Walked successors [] (walkAll successors fuel roots) ∧
      (∀ x ∈ (walkAll successors fuel roots).visited, x ∈ nodes) ∧
      ∀ x ∈ roots, x ∈ (walkAll successors fuel roots).visited := by
  induction roots using List.reverseRecOn with
  | nil =>
    have empty : Walked successors [] (⟨[], [], []⟩ : Walk N) :=
      ⟨nodup_nil, by simp, nofun, nofun, trivial, by
        intro before node after e
        simp at e⟩
    exact ⟨empty, nofun, nofun⟩
  | append_singleton roots root ih =>
    obtain ⟨walked, within, covered⟩ := ih fun x hx => inside x (mem_append_left _ hx)
    have hr : root ∈ nodes := inside root (by simp)
    simp only [walkAll, foldl_append, foldl_cons, foldl_nil] at walked within covered ⊢
    generalize roots.foldl _ _ = before at walked within covered ⊢
    split
    · next seen =>
      refine ⟨walked, within, fun x hx => ?_⟩
      rcases mem_append.mp hx with hx | hx
      · exact covered x hx
      · obtain rfl : x = root := by simpa using hx
        exact seen
    · next unseen =>
      have bounded : remaining successors nodes [(root, successors root)]
        { before with visited := root :: before.visited } < fuel := by
        rw [remaining_push hr [] unseen]
        refine Nat.lt_of_le_of_lt ?_ enough
        exact Finset.sum_le_sum_of_subset (Finset.filter_subset _ _)
      obtain ⟨walked, within, kept⟩ := walked_walkFrom closed fuel _ _
        (walked.push unseen nofun) (forall_mem_cons.mpr ⟨hr, within⟩) bounded
      refine ⟨walked, within, fun x hx => kept x ?_⟩
      rcases mem_append.mp hx with hx | hx
      · exact .tail _ (covered x hx)
      · obtain rfl : x = root := by simpa using hx
        exact (.head _)

/-- The predecessors are the nodes with an edge to the node. -/
theorem Walked.mem_predecessors {walk : Walk N} (h : Walked successors [] walk) {x y : N} :
    x ∈ walk.predecessors y ↔ x ∈ walk.order ∧ y ∈ successors x := by
  have member : x ∈ walk.predecessors y ↔ (y, x) ∈ walk.reverse := by
    simp [Walk.predecessors]
  have finished : x ∈ walk.visited ↔ x ∈ walk.order := by
    rw [h.visited]
    simp
  rw [member]
  constructor
  · intro edge
    exact ⟨finished.mp (h.edges _ edge).2, (h.edges _ edge).1⟩
  · rintro ⟨hx, hy⟩
    exact (h.finished x hx y hy).2

/-! ## 3. The collection -/

theorem pushUnvisited_spec (stack visited nodes : List N) :
    ∃ new, pushUnvisited stack visited nodes = (new ++ stack, new ++ visited) ∧ new.Nodup ∧
      ∀ x, x ∈ new ↔ x ∈ nodes ∧ x ∉ visited := by
  induction nodes generalizing stack visited with
  | nil => exact ⟨[], rfl, nodup_nil, by simp⟩
  | cons node nodes ih =>
    simp only [pushUnvisited]
    split
    · next seen =>
      obtain ⟨new, e, nodup, mem⟩ := ih stack visited
      refine ⟨new, e, nodup, fun x => ?_⟩
      rw [mem, mem_cons]
      constructor
      · exact fun h => ⟨.inr h.1, h.2⟩
      · rintro ⟨rfl | hx, unseen⟩
        · exact absurd seen unseen
        · exact ⟨hx, unseen⟩
    · next unseen =>
      obtain ⟨new, e, nodup, mem⟩ := ih (node :: stack) (node :: visited)
      refine ⟨new ++ [node], by simpa using e, nodup_append.mpr ⟨nodup, by simp, ?_⟩, fun x => ?_⟩
      · intro x hx y hy same
        obtain rfl : y = node := by simpa using hy
        exact ((mem x).mp hx).2 (same ▸ (.head _))
      · rw [mem_append, mem, mem_singleton, mem_cons, mem_cons]
        by_cases e : x = node
        · simp [e, unseen]
        · simp [e]

/-- **The invariant of a collection** from the root, with the nodes visited before it. -/
structure Collecting (predecessors : N → List N) (before : List N) (root : N)
  (stack visited component : List N) : Prop where
  once : (component ++ stack).Nodup
  fresh : ∀ x ∈ component ++ stack, x ∉ before
  marked : ∀ x, x ∈ visited ↔ x ∈ before ∨ x ∈ component ++ stack
  rooted : root ∈ component ++ stack
  reaches : ∀ x ∈ component ++ stack, Relation.ReflTransGen (fun x y => x ∈ predecessors y) x root
  closed : ∀ y ∈ component, ∀ x ∈ predecessors y, x ∈ visited

variable {predecessors : N → List N} {before : List N} {root : N}

theorem Collecting.step {node : N} {stack visited component new : List N}
    (h : Collecting predecessors before root (node :: stack) visited component)
    (nodup : new.Nodup) (mem : ∀ x, x ∈ new ↔ x ∈ predecessors node ∧ x ∉ visited) :
    Collecting predecessors before root (new ++ stack) (new ++ visited) (component ++ [node]) := by
  have perm : (component ++ [node] ++ (new ++ stack)).Perm (new ++ (component ++ node :: stack)) := by
    rw [append_assoc, singleton_append, ← append_assoc new]
    refine (List.Perm.append_left component perm_middle.symm).trans ?_
    rw [append_assoc, ← append_assoc component, ← append_assoc new component]
    exact (perm_append_comm).append_right _
  have all (x : N) : x ∈ component ++ [node] ++ (new ++ stack) ↔ x ∈ new ∨ x ∈ component ++ node :: stack := by
    rw [perm.mem_iff, mem_append]
  have unseen : ∀ x ∈ new, x ∉ before ∧ x ∉ component ++ node :: stack := fun x hx =>
    not_or.mp fun hv => ((mem x).mp hx).2 ((h.marked x).mpr hv)
  constructor
  · refine perm.nodup_iff.mpr (nodup_append.mpr ⟨nodup, h.once, ?_⟩)
    exact fun x hx y hy e => (unseen x hx).2 (e ▸ hy)
  · intro x hx
    rcases (all x).mp hx with hx | hx
    · exact (unseen x hx).1
    · exact h.fresh x hx
  · intro x
    rw [all, mem_append, h.marked]
    tauto
  · exact (all root).mpr (.inr h.rooted)
  · intro x hx
    rcases (all x).mp hx with hx | hx
    · exact .head ((mem x).mp hx).1 (h.reaches node (by simp))
    · exact h.reaches x hx
  · intro y hy x hx
    by_cases seen : x ∈ visited
    · exact mem_append_right _ seen
    rcases mem_append.mp hy with hy | hy
    · exact absurd (h.closed y hy x hx) seen
    · obtain rfl : y = node := by simpa using hy
      exact mem_append_left _ ((mem x).mpr ⟨hx, seen⟩)

/-- **A collection takes the whole stack down.** -/
theorem collecting_collect {nodes : Finset N}
    (inside : ∀ y ∈ nodes, ∀ x ∈ predecessors y, x ∈ nodes) (fuel : Nat) (stack visited component : List N)
    (h : Collecting predecessors before root stack visited component) (within : ∀ x ∈ component ++ stack, x ∈ nodes)
    (enough : stack.length + (nodes.filter (· ∉ visited)).card < fuel) :
    Collecting predecessors before root [] (collect predecessors fuel stack visited component).2
      (collect predecessors fuel stack visited component).1 := by
  induction fuel generalizing stack visited component with
  | zero => exact absurd enough (Nat.not_lt_zero _)
  | succ fuel ih =>
    match stack with
    | [] => exact h
    | node :: stack =>
      obtain ⟨new, e, nodup, mem⟩ := pushUnvisited_spec stack visited (predecessors node)
      have hn : node ∈ nodes := within node (by simp)
      have inner : ∀ x ∈ new, x ∈ nodes := fun x hx => inside node hn x ((mem x).mp hx).1
      simp only [collect, e]
      refine ih _ _ _ (h.step nodup mem) (fun x hx => ?_) ?_
      · simp only [mem_append, mem_singleton] at hx
        rcases hx with (hx | rfl) | hx | hx
        · exact within x (mem_append_left _ hx)
        · exact hn
        · exact inner x hx
        · exact within x (by simp [hx])
      · have split : nodes.filter (· ∉ visited) = nodes.filter (· ∉ new ++ visited) ∪ new.toFinset := by
          ext x
          simp only [Finset.mem_filter, Finset.mem_union, mem_append, mem_toFinset]
          have := mem x
          tauto
        have disjoint : Disjoint (nodes.filter (· ∉ new ++ visited)) new.toFinset := by
          refine Finset.disjoint_left.mpr fun x hx hn => ?_
          exact (Finset.mem_filter.mp hx).2 (mem_append_left _ (mem_toFinset.mp hn))
        have count := Finset.card_union_of_disjoint disjoint
        rw [← split, toFinset_card_of_nodup nodup] at count
        simp only [length_append, length_cons] at enough ⊢
        omega

/-! ## 4. The components -/

/-- **The invariant of the second pass**: `after` is done, and the components found are all that
  reaches into the visited. -/
structure Collected (successors : N → List N) (order after visited : List N)
  (components : List (List N)) : Prop where
  done : ∀ x ∈ after, x ∈ visited
  marked : ∀ x, x ∈ visited ↔ x ∈ components.flatten
  once : components.flatten.Nodup
  inside : ∀ x ∈ visited, x ∈ order
  closed : ∀ y ∈ visited, ∀ x ∈ order, y ∈ successors x → x ∈ visited
  exact : ∀ component ∈ components, ∀ x ∈ component, ∀ y ∈ order,
    (y ∈ component ↔ Reaches successors x y ∧ Reaches successors y x)
  inhabited : [] ∉ components
  sorted : components.Pairwise fun first second =>
    ∀ x ∈ first, ∀ y ∈ second, ¬ Reaches successors y x

omit [DecidableEq N] in
/-- What is reached from a node of a closed list is in it. -/
theorem mem_of_reaches {order : List N} (forward : ∀ x ∈ order, ∀ y ∈ successors x, y ∈ order)
    {x y : N} (hx : x ∈ order) (path : Reaches successors x y) : y ∈ order := by
  induction path with
  | refl => exact hx
  | tail _ edge ih => exact forward _ ih _ edge

omit [DecidableEq N] in
/-- What reaches a visited node is visited, when no edge leads into the visited from outside. -/
theorem visited_of_reaches {order visited : List N} (forward : ∀ x ∈ order, ∀ y ∈ successors x, y ∈ order)
    (closed : ∀ y ∈ visited, ∀ x ∈ order, y ∈ successors x → x ∈ visited) {x y : N}
    (hx : x ∈ order) (path : Reaches successors x y) (hy : y ∈ visited) : x ∈ visited := by
  induction path using Relation.ReflTransGen.head_induction_on with
  | refl => exact hy
  | head edge _ ih => exact closed _ (ih (forward _ hx _ edge)) _ hx edge

omit [DecidableEq N] in
/-- What is not visited and reaches the root, which was finished last of these, is reached from it:
  no edge leads there from what was finished before the root was found. -/
theorem Postordered.reached {order before after visited : List N} {root : N}
    {components : List (List N)} (h : Postordered successors order)
    (split : order = before ++ root :: after) (closed : ∀ x ∈ order, ∀ y ∈ successors x, y ∈ order)
    (collected : Collected successors order after visited components) {x : N}
    (hx : x ∈ order) (fresh : x ∉ visited) (path : Reaches successors x root) : Reaches successors root x := by
  obtain ⟨earlier, below, e, under, out⟩ := h before root after split
  have near : x ∈ below ∨ x = root := by
    induction path using Relation.ReflTransGen.head_induction_on with
    | refl => exact .inr rfl
    | @head x y edge _ ih =>
      have next := ih (closed x hx y edge) fun hy => fresh (collected.closed y hy x hx edge)
      rw [split, e] at hx
      simp only [mem_append, mem_cons] at hx
      rcases hx with (early | hb) | rfl | ha
      · rcases next with hb | rfl
        · exact absurd hb (out x early y edge).2
        · exact absurd rfl (out x early y edge).1
      · exact .inl hb
      · exact .inr rfl
      · exact absurd (collected.done x ha) fresh
  rcases near with hb | rfl
  · exact under x hb
  · exact .refl

omit [DecidableEq N] in
/-- A visited root is passed over. -/
theorem Collected.skip {order after visited : List N} {components : List (List N)} {root : N}
    (h : Collected successors order after visited components) (seen : root ∈ visited) :
    Collected successors order (root :: after) visited components :=
  ⟨forall_mem_cons.mpr ⟨seen, h.done⟩, h.marked, h.once, h.inside, h.closed, h.exact, h.inhabited, h.sorted⟩

omit [DecidableEq N] in
/-- An unvisited root gives the component of all that reaches it and is not visited. -/
theorem Collected.add {order before after visited visited' component : List N}
    {components : List (List N)} {root : N} (postordered : Postordered successors order)
    (split : order = before ++ root :: after) (forward : ∀ x ∈ order, ∀ y ∈ successors x, y ∈ order)
    (predecessor : ∀ x y, x ∈ predecessors y ↔ x ∈ order ∧ y ∈ successors x)
    (h : Collected successors order after visited components)
    (collecting : Collecting predecessors visited root [] visited' component) :
    Collected successors order (root :: after) visited' (components ++ [component]) := by
  have hr : root ∈ order := by simp [split]
  have once := collecting.once
  have fresh := collecting.fresh
  have marked := collecting.marked
  have rooted := collecting.rooted
  have backward := collecting.reaches
  simp only [append_nil] at once fresh marked rooted backward
  have reaches : ∀ x ∈ component, Reaches successors x root := fun x hx =>
    Relation.ReflTransGen.mono (fun x y hp => ((predecessor x y).mp hp).2) x root (backward x hx)
  have ordered : ∀ x ∈ component, x ∈ order := by
    intro x hx
    rcases (backward x hx).cases_head with rfl | ⟨y, hp, _⟩
    · exact hr
    · exact ((predecessor x y).mp hp).1
  have kept : ∀ x ∈ visited, x ∈ visited' := fun x hx => (marked x).mpr (.inl hx)
  have closed : ∀ y ∈ visited', ∀ x ∈ order, y ∈ successors x → x ∈ visited' := by
    intro y hy x hx edge
    rcases (marked y).mp hy with hv | hc
    · exact kept x (h.closed y hv x hx edge)
    · exact collecting.closed y hc x ((predecessor x y).mpr ⟨hx, edge⟩)
  constructor
  · exact forall_mem_cons.mpr ⟨(marked root).mpr (.inr rooted), fun x hx => kept x (h.done x hx)⟩
  · intro x
    rw [marked, h.marked, flatten_append, mem_append]
    simp
  · rw [flatten_append, flatten_singleton]
    exact nodup_append.mpr ⟨h.once, once, fun x hx y hy e =>
      fresh y hy ((h.marked y).mpr (e ▸ hx))⟩
  · intro x hx
    rcases (marked x).mp hx with hv | hc
    · exact h.inside x hv
    · exact ordered x hc
  · exact closed
  · intro c hc x hx y hy
    rcases mem_append.mp hc with hc | hc
    · exact h.exact c hc x hx y hy
    · obtain rfl : c = component := by simpa using hc
      have back (z : N) (hz : z ∈ c) : Reaches successors root z :=
        postordered.reached split forward h (ordered z hz) (fresh z hz) (reaches z hz)
      constructor
      · intro hyc
        exact ⟨(reaches x hx).trans (back y hyc), (reaches y hyc).trans (back x hx)⟩
      · rintro ⟨there, back⟩
        -- what reaches a member is visited by now, and was not before, or the member was too
        have seen : y ∈ visited' :=
          visited_of_reaches forward closed hy back ((marked x).mpr (.inr hx))
        rcases (marked y).mp seen with hv | hc
        · exact absurd (visited_of_reaches forward h.closed (ordered x hx) there hv) (fresh x hx)
        · exact hc
  · intro empty
    rcases mem_append.mp empty with he | he
    · exact h.inhabited he
    · obtain rfl : [] = component := by simpa using he
      exact nomatch rooted
  · refine pairwise_append.mpr ⟨h.sorted, pairwise_singleton _ _, ?_⟩
    intro first hf second hs x hx y hy path
    obtain rfl : second = component := by simpa using hs
    -- no edge leads into the visited from outside
    have hv : x ∈ visited := (h.marked x).mpr (mem_flatten.mpr ⟨first, hf, hx⟩)
    exact fresh y hy (visited_of_reaches forward h.closed (ordered y hy) path hv)

/-- One root of the second pass. -/
def collectRoot (predecessors : N → List N) (fuel : Nat) (state : List N × List (List N))
  (root : N) : List N × List (List N) :=
  if root ∈ state.1 then state
  else
    let collected := collect predecessors fuel [root] (root :: state.1) []
    (collected.2, state.2 ++ [collected.1])

/-- **The second pass collects the components of all that was finished.** -/
theorem collected_foldl {order : List N} (postordered : Postordered successors order)
    (forward : ∀ x ∈ order, ∀ y ∈ successors x, y ∈ order)
    (predecessor : ∀ x y, x ∈ predecessors y ↔ x ∈ order ∧ y ∈ successors x) {fuel : Nat}
    (enough : order.length < fuel) (before after : List N) (state : List N × List (List N))
    (split : order = before ++ after) (h : Collected successors order after state.1 state.2) :
    Collected successors order order (before.reverse.foldl (collectRoot predecessors fuel) state).1
      (before.reverse.foldl (collectRoot predecessors fuel) state).2 := by
  induction before using List.reverseRecOn generalizing after state with
  | nil => simpa [split] using h
  | append_singleton before root ih =>
    rw [append_assoc, singleton_append] at split
    rw [reverse_append, reverse_singleton, singleton_append, foldl_cons]
    refine ih (root :: after) _ split ?_
    unfold collectRoot
    split
    · next seen => exact h.skip seen
    · next unseen =>
      refine h.add postordered split forward predecessor ?_
      have start : Collecting predecessors state.1 root [root] (root :: state.1) [] :=
        ⟨by simp, by simpa using unseen, by simp [or_comm], by simp, by
          intro x hx
          obtain rfl : x = root := by simpa using hx
          exact .refl, nofun⟩
      refine collecting_collect (fun y _ x hx => mem_toFinset.mpr
        ((predecessor x y).mp hx).1) fuel _ _ _ start ?_ ?_
      · simp [split]
      · have fewer : (order.toFinset.filter (· ∉ root :: state.1)).card < order.toFinset.card := by
          refine Finset.card_lt_card (Finset.filter_ssubset.mpr ⟨root, ?_, by simp⟩)
          simp [split]
        have := toFinset_card_le order
        simp only [length_singleton]
        omega

section

variable {nodes : Finset N} {fuel : Nat}
variable (closed : ∀ x ∈ nodes, ∀ y ∈ successors x, y ∈ nodes) (enough : walkWork successors nodes < fuel)
include closed enough

open Classical in
/-- **The components of what is reached from the roots.** -/
theorem collected_components {roots : List N} (inside : ∀ x ∈ roots, x ∈ nodes) : ∃ order visited,
      (∀ x, x ∈ order ↔ ∃ root ∈ roots, Reaches successors root x) ∧
        Collected successors order order visited (stronglyConnectedComponents successors fuel roots) ∧
        (∀ x ∈ order, ∀ y ∈ successors x, y ∈ order) ∧ ∀ x, x ∈ visited ↔ x ∈ order := by
  -- the walk stays among the nodes that are reached
  have reachable : ∀ x ∈ nodes.filter fun x => ∃ root ∈ roots, Reaches successors root x,
    ∀ y ∈ successors x, y ∈ nodes.filter fun x => ∃ root ∈ roots, Reaches successors root x := by
    intro x hx y edge
    obtain ⟨hn, root, hr, path⟩ := Finset.mem_filter.mp hx
    exact Finset.mem_filter.mpr ⟨closed x hn y edge, root, hr, path.tail edge⟩
  have fewer : walkWork successors (nodes.filter fun x =>
    ∃ root ∈ roots, Reaches successors root x) < fuel :=
    Nat.lt_of_le_of_lt (Finset.sum_le_sum_of_subset (Finset.filter_subset _ _)) enough
  obtain ⟨walked, within, covered⟩ := walked_walkAll reachable fewer roots fun x hx =>
    Finset.mem_filter.mpr ⟨inside x hx, x, hx, .refl⟩
  generalize known : walkAll successors fuel roots = walk at walked within covered
  have finished (x : N) : x ∈ walk.visited ↔ x ∈ walk.order := by
    rw [walked.visited]
    simp
  have forward : ∀ x ∈ walk.order, ∀ y ∈ successors x, y ∈ walk.order := fun x hx y hy =>
    (finished y).mp (walked.finished x hx y hy).1
  have ordered (x : N) : x ∈ walk.order ↔ ∃ root ∈ roots, Reaches successors root x := by
    constructor
    · intro hx
      exact (Finset.mem_filter.mp (within x ((finished x).mpr hx))).2
    · intro ⟨root, hr, path⟩
      exact mem_of_reaches forward ((finished root).mp (covered root hr)) path
  have nodup : walk.order.Nodup := by simpa using walked.once
  have bounded : walk.order.length < fuel := by
    refine Nat.lt_of_le_of_lt ?_ enough
    have sub : walk.order.toFinset ⊆ nodes := fun x hx =>
      (Finset.mem_filter.mp (within x ((finished x).mpr (mem_toFinset.mp hx)))).1
    calc walk.order.length = walk.order.toFinset.card := (toFinset_card_of_nodup nodup).symm
      _ ≤ nodes.card := Finset.card_le_card sub
      _ = nodes.sum fun _ => 1 := Finset.card_eq_sum_ones nodes
      _ ≤ walkWork successors nodes := Finset.sum_le_sum fun _ _ => Nat.le_add_left _ _
  have collected := collected_foldl walked.postordered forward
    (fun x y => walked.mem_predecessors) bounded walk.order [] ([], []) (by simp)
    ⟨nofun, by simp, nodup_nil, nofun, nofun, nofun, not_mem_nil, List.Pairwise.nil⟩
  have components : stronglyConnectedComponents successors fuel roots =
    (collectAll walk.predecessors fuel walk.order.reverse).2 := by
    rw [stronglyConnectedComponents, known]
  rw [components]
  exact ⟨walk.order, _, ordered, collected, forward, fun x => ⟨collected.inside x, collected.done x⟩⟩

/-- **The components part what is reached from the roots, two nodes are in one component exactly when
  they reach each other, and no path leads from a component to an earlier one.** -/
theorem components_spec {roots : List N} (inside : ∀ x ∈ roots, x ∈ nodes) :
    (stronglyConnectedComponents successors fuel roots).flatten.Nodup ∧
      (∀ x, x ∈ (stronglyConnectedComponents successors fuel roots).flatten ↔
        ∃ root ∈ roots, Reaches successors root x) ∧ [] ∉ stronglyConnectedComponents successors fuel roots ∧
      (∀ component ∈ stronglyConnectedComponents successors fuel roots, ∀ x ∈ component,
        ∀ y, y ∈ component ↔ Reaches successors x y ∧ Reaches successors y x) ∧
      (stronglyConnectedComponents successors fuel roots).Pairwise fun first second =>
        ∀ x ∈ first, ∀ y ∈ second, ¬ Reaches successors y x := by
  obtain ⟨order, visited, ordered, collected, forward, seen⟩ :=
    collected_components closed enough inside
  have mem (x : N) : x ∈ (stronglyConnectedComponents successors fuel roots).flatten ↔ x ∈ order :=
    (collected.marked x).symm.trans (seen x)
  refine ⟨collected.once, fun x => (mem x).trans (ordered x), collected.inhabited,
    fun component hc x hx y => ?_, collected.sorted⟩
  have hxo : x ∈ order := (mem x).mp (mem_flatten.mpr ⟨component, hc, hx⟩)
  constructor
  · intro hy
    exact (collected.exact component hc x hx y
      ((mem y).mp (mem_flatten.mpr ⟨component, hc, hy⟩))).mp hy
  · intro reach
    exact (collected.exact component hc x hx y (mem_of_reaches forward hxo reach.1)).mpr reach

/-- **The components of a graph that is given whole.** -/
theorem mem_component_iff {roots : List N} (all : ∀ x, x ∈ roots ↔ x ∈ nodes) :
    (stronglyConnectedComponents successors fuel roots).flatten.Nodup ∧
      (∀ x, x ∈ (stronglyConnectedComponents successors fuel roots).flatten ↔ x ∈ roots) ∧
      ∀ component ∈ stronglyConnectedComponents successors fuel roots, ∀ x ∈ component,
        ∀ y, y ∈ component ↔ Reaches successors x y ∧ Reaches successors y x := by
  obtain ⟨once, mem, _, exact_, _⟩ := components_spec closed enough fun x hx => (all x).mp hx
  refine ⟨once, fun x => (mem x).trans ⟨?_, fun hx => ⟨x, hx, .refl⟩⟩, exact_⟩
  intro ⟨root, hr, path⟩
  refine (all x).mpr ?_
  induction path with
  | refl => exact (all root).mp hr
  | tail _ edge ih => exact closed _ ih _ edge

end

end Bray.Lib
