/-
  File:      Bray/Collection/OrderedMap.lean
  Subject:   THE ORDERED MAP (std/collection/ordered_map.bray) and what it refines: a finite sorted map
             with a capacity.

  A reference to an entry is modelled by the entry; what a caller writes through a mutable reference
  is a function on the value. A cursor is asked for its next entry a number of times, also past its
  end.
-/
import Bray.Collection.Ordered
import Bray.Lib.SortedMap

namespace Bray.Collection

open Bray.Lib List OrderedTree

variable {K V : Type}

/-! ## 1. The map -/

/-- A key and a value. -/
abbrev OrderedMapItem (K V : Type) := K × V

structure OrderedMap (K V : Type) where
  tree : OrderedTree (OrderedMapItem K V)

/-- `ordered_bound_end` -/
def orderedBoundEnd : Bound K → Option K × Bool
  | .unbounded => (none, false)
  | .included value => (some value, true)
  | .excluded value => (some value, false)

/-- `ordered_key_within_end` -/
def orderedKeyWithinEnd (cmp : K → K → Ordering) (key : K) (upper : Option K) (inclusive : Bool) :
    Bool :=
  match upper with
  | none => true
  | some upper => match cmp key upper with
    | .lt => true
    | .eq => inclusive
    | .gt => false

structure OrderedMapRangeCursor (K : Type) where
  current : Option Nat
  upper : Option K
  upperInclusive : Bool

namespace OrderedMap

def construct (target : Target) (capacity : Nat) :
    Except Panic (Except MemoryLayoutError (OrderedMap K V)) := do
  match ← OrderedTree.construct target capacity with
  | .error e => .ok (.error e)
  | .ok tree => .ok (.ok ⟨tree⟩)

def length (map : OrderedMap K V) : Nat := map.tree.count

def capacity (map : OrderedMap K V) : Nat := map.tree.capacity

def isEmpty (map : OrderedMap K V) : Bool := map.tree.count == 0

def reserve (target : Target) (map : OrderedMap K V) (additional : Nat) :
    Except Panic (OrderedMap K V × Except MemoryLayoutError Unit) := do
  let (tree, reserved) ← map.tree.reserve target additional
  .ok (⟨tree⟩, reserved)

/-- `ordered_tree_search` with `compare_key` -/
def search (cmp : K → K → Ordering) (map : OrderedMap K V) (key : K) : Except Panic OrderedTreeSearch :=
  map.tree.search fun item => cmp item.1 key

def get (cmp : K → K → Ordering) (map : OrderedMap K V) (key : K) : Except Panic (Option V) := do
  let search ← map.search cmp key
  match search.found with
  | none => .ok none
  | some index => do
    let item ← Slot.get map.tree.items index
    .ok (some item.2)

/-- `get_mut`, and what is written through the reference. -/
def getMut (cmp : K → K → Ordering) (map : OrderedMap K V) (key : K) (f : V → V) :
    Except Panic (OrderedMap K V × Option V) := do
  let search ← map.search cmp key
  match search.found with
  | none => .ok (map, none)
  | some index => do
    let (item, items) ← Slot.update map.tree.items index fun item => (item.1, f item.2)
    .ok (⟨{ map.tree with items := items }⟩, some item.2)

def containsKey (cmp : K → K → Ordering) (map : OrderedMap K V) (key : K) : Except Panic Bool := do
  let search ← map.search cmp key
  .ok search.found.isSome

def insert (target : Target) (cmp : K → K → Ordering) (map : OrderedMap K V) (key : K) (value : V) :
    Except Panic (OrderedMap K V × Except MemoryLayoutError (Option V)) := do
  let search ← map.search cmp key
  match search.found with
  | some index => do
    let (item, items) ← Slot.update map.tree.items index fun item => (item.1, value)
    .ok (⟨{ map.tree with items := items }⟩, .ok (some item.2))
  | none => do
    let (map, reserved) ← map.reserve target 1
    match reserved with
    | .error e => .ok (map, .error e)
    | .ok () => do
      let (tree, _) ← map.tree.insertAt (key, value) search
      .ok (⟨tree⟩, .ok none)

def removeEntry (cmp : K → K → Ordering) (map : OrderedMap K V) (key : K) :
    Except Panic (OrderedMap K V × Option (K × V)) := do
  let search ← map.search cmp key
  match search.found with
  | none => .ok (map, none)
  | some index => do
    let (tree, item) ← map.tree.removeAt index
    .ok (⟨tree⟩, some (item.1, item.2))

def remove (cmp : K → K → Ordering) (map : OrderedMap K V) (key : K) :
    Except Panic (OrderedMap K V × Option V) := do
  let (map, entry) ← map.removeEntry cmp key
  .ok (map, entry.map Prod.snd)

/-- `ordered_map_reference_at`, where there is an index. -/
def referenceAt (map : OrderedMap K V) : Option Nat → Except Panic (Option (K × V))
  | none => .ok none
  | some index => do
    let item ← Slot.get map.tree.items index
    .ok (some (item.1, item.2))

def lowerBound (cmp : K → K → Ordering) (map : OrderedMap K V) (key : K) :
    Except Panic (Option (K × V)) := do
  let index ← map.tree.bound (fun item => cmp item.1 key) true
  map.referenceAt index

def upperBound (cmp : K → K → Ordering) (map : OrderedMap K V) (key : K) :
    Except Panic (Option (K × V)) := do
  let index ← map.tree.bound (fun item => cmp item.1 key) false
  map.referenceAt index

def first (map : OrderedMap K V) : Except Panic (Option (K × V)) := do
  let index ← map.tree.minimum map.tree.root
  map.referenceAt index

def last (map : OrderedMap K V) : Except Panic (Option (K × V)) := do
  let index ← map.tree.maximum map.tree.root
  map.referenceAt index

/-- `ordered_bound_start` -/
def boundStart (cmp : K → K → Ordering) (map : OrderedMap K V) : Bound K → Except Panic (Option Nat)
  | .unbounded => map.tree.minimum map.tree.root
  | .included value => map.tree.bound (fun item => cmp item.1 value) true
  | .excluded value => map.tree.bound (fun item => cmp item.1 value) false

def range (cmp : K → K → Ordering) (map : OrderedMap K V) (low high : Bound K) :
    Except Panic (OrderedMapRangeCursor K) := do
  let current ← map.boundStart cmp low
  .ok ⟨current, (orderedBoundEnd high).1, (orderedBoundEnd high).2⟩

def clear (map : OrderedMap K V) : Except Panic (OrderedMap K V) := do
  let tree ← map.tree.clear
  .ok ⟨tree⟩

/-! ## 2. Cursors -/

/-- `OrderedMapReadCursor.next` -/
def readNext (map : OrderedMap K V) :
    Option Nat → Except Panic (Option Nat × Option (K × V))
  | none => .ok (none, none)
  | some index => do
    let current ← map.tree.successor index
    let entry ← map.referenceAt (some index)
    .ok (current, entry)

def readCalls (map : OrderedMap K V) : Nat → Option Nat → Except Panic (List (Option (K × V)))
  | 0, _ => .ok []
  | calls + 1, current => do
    let (current, entry) ← map.readNext current
    let rest ← map.readCalls calls current
    .ok (entry :: rest)

/-- `iterate` of a shared map, and so many calls of `next`. -/
def read (map : OrderedMap K V) (calls : Nat) : Except Panic (List (Option (K × V))) := do
  let current ← map.tree.minimum map.tree.root
  map.readCalls calls current

/-- `OrderedMapWriteCursor.next`, and what is written through the reference. -/
def writeNext (map : OrderedMap K V) (f : V → V) :
    Option Nat → Except Panic (OrderedMap K V × Option Nat × Option (K × V))
  | none => .ok (map, none, none)
  | some index => do
    let current ← map.tree.successor index
    let (item, items) ← Slot.update map.tree.items index fun item => (item.1, f item.2)
    .ok (⟨{ map.tree with items := items }⟩, current, some (item.1, item.2))

def writeCalls : List (V → V) → OrderedMap K V → Option Nat →
    Except Panic (OrderedMap K V × List (Option (K × V)))
  | [], map, _ => .ok (map, [])
  | f :: fs, map, current => do
    let (map, current, entry) ← map.writeNext f current
    let (map, rest) ← writeCalls fs map current
    .ok (map, entry :: rest)

/-- `iterate` of a mutable map, and a call of `next` for each write. -/
def write (map : OrderedMap K V) (fs : List (V → V)) :
    Except Panic (OrderedMap K V × List (Option (K × V))) := do
  let current ← map.tree.minimum map.tree.root
  writeCalls fs map current

/-- `OrderedMapMoveCursor.next` -/
def moveNext (map : OrderedMap K V) :
    Option Nat → Except Panic (OrderedMap K V × Option Nat × Option (K × V))
  | none => .ok (map, none, none)
  | some index => do
    let current ← map.tree.successor index
    let (tree, item) ← map.tree.takeForIteration index
    .ok (⟨tree⟩, current, some (item.1, item.2))

def moveCalls : Nat → OrderedMap K V → Option Nat →
    Except Panic (OrderedMap K V × List (Option (K × V)))
  | 0, map, _ => .ok (map, [])
  | calls + 1, map, current => do
    let (map, current, entry) ← map.moveNext current
    let (map, rest) ← moveCalls calls map current
    .ok (map, entry :: rest)

/-- `iterate` of an owned map, and so many calls of `next`; what is left goes with the cursor. -/
def move (map : OrderedMap K V) (calls : Nat) :
    Except Panic (OrderedMap K V × List (Option (K × V))) := do
  let current ← map.tree.minimum map.tree.root
  moveCalls calls map current

/-- `OrderedMapRangeCursor.next` -/
def rangeNext (cmp : K → K → Ordering) (map : OrderedMap K V) (cursor : OrderedMapRangeCursor K) :
    Except Panic (OrderedMapRangeCursor K × Option (K × V)) :=
  match cursor.current with
  | none => .ok (cursor, none)
  | some index => do
    let item ← Slot.get map.tree.items index
    if orderedKeyWithinEnd cmp item.1 cursor.upper cursor.upperInclusive then
      let current ← map.tree.successor index
      let entry ← map.referenceAt (some index)
      .ok ({ cursor with current := current }, entry)
    else .ok ({ cursor with current := none }, none)

def rangeCalls (cmp : K → K → Ordering) (map : OrderedMap K V) :
    Nat → OrderedMapRangeCursor K → Except Panic (List (Option (K × V)))
  | 0, _ => .ok []
  | calls + 1, cursor => do
    let (cursor, entry) ← map.rangeNext cmp cursor
    let rest ← map.rangeCalls cmp calls cursor
    .ok (entry :: rest)

end OrderedMap

/-! ## 3. What the map is for -/

inductive MapOp (K V : Type) where
  | length
  | capacity
  | isEmpty
  | reserve (additional : Nat)
  | get (key : K)
  | getMut (key : K) (f : V → V)
  | containsKey (key : K)
  | insert (key : K) (value : V)
  | remove (key : K)
  | removeEntry (key : K)
  | lowerBound (key : K)
  | upperBound (key : K)
  | first
  | last
  | range (low high : Bound K) (calls : Nat)
  | read (calls : Nat)
  | write (fs : List (V → V))
  | clear

inductive MapAnswer (K V : Type) where
  | done
  | count (n : Nat)
  | flag (b : Bool)
  | value (found : Option V)
  | entry (found : Option (K × V))
  | entries (yielded : List (Option (K × V)))
  | reserved (result : Except MemoryLayoutError Unit)
  | inserted (result : Except MemoryLayoutError (Option V))

/-- **A finite sorted map with a capacity.** -/
structure MapModel (cmp : K → K → Ordering) (V : Type) where
  map : SortedMap cmp V
  capacity : Nat

namespace MapModel

variable {cmp : K → K → Ordering} [Std.TransCmp cmp]

/-- The capacity after room for more entries is asked for. -/
def grown (target : Target) (a : MapModel cmp V) (additional : Nat) : Except MemoryLayoutError Nat :=
  grow target a.map.entries.length a.capacity additional

def step (target : Target) (a : MapModel cmp V) : MapOp K V → MapModel cmp V × MapAnswer K V
  | .length => (a, .count a.map.entries.length)
  | .capacity => (a, .count a.capacity)
  | .isEmpty => (a, .flag a.map.entries.isEmpty)
  | .reserve additional => match a.grown target additional with
    | .error e => (a, .reserved (.error e))
    | .ok capacity => ({ a with capacity := capacity }, .reserved (.ok ()))
  | .get key => (a, .value (a.map.get? key))
  | .getMut key f => ({ a with map := a.map.modify key f }, .value (a.map.get? key))
  | .containsKey key => (a, .flag (a.map.entryOf key).isSome)
  | .insert key value => match a.map.get? key with
    | some old => ({ a with map := a.map.insert key value }, .inserted (.ok (some old)))
    | none => match a.grown target 1 with
      | .error e => (a, .inserted (.error e))
      | .ok capacity => (⟨a.map.insert key value, capacity⟩, .inserted (.ok none))
  | .remove key => ({ a with map := a.map.erase key }, .value (a.map.get? key))
  | .removeEntry key => ({ a with map := a.map.erase key }, .entry (a.map.entryOf key))
  | .lowerBound key => (a, .entry (a.map.lowerBound key))
  | .upperBound key => (a, .entry (a.map.upperBound key))
  | .first => (a, .entry a.map.entries.head?)
  | .last => (a, .entry a.map.entries.getLast?)
  | .range low high calls => (a, .entries (yields calls (a.map.range low high)))
  | .read calls => (a, .entries (yields calls a.map.entries))
  | .write fs => ({ a with map := a.map.write fs }, .entries (yields fs.length a.map.entries))
  | .clear => ({ a with map := .empty cmp V }, .done)

end MapModel

namespace OrderedMap

def step (target : Target) (cmp : K → K → Ordering) (map : OrderedMap K V) :
    MapOp K V → Except Panic (OrderedMap K V × MapAnswer K V)
  | .length => .ok (map, .count map.length)
  | .capacity => .ok (map, .count map.capacity)
  | .isEmpty => .ok (map, .flag map.isEmpty)
  | .reserve additional => do
    let (map, result) ← map.reserve target additional
    .ok (map, .reserved result)
  | .get key => do
    let found ← map.get cmp key
    .ok (map, .value found)
  | .getMut key f => do
    let (map, found) ← map.getMut cmp key f
    .ok (map, .value found)
  | .containsKey key => do
    let found ← map.containsKey cmp key
    .ok (map, .flag found)
  | .insert key value => do
    let (map, result) ← map.insert target cmp key value
    .ok (map, .inserted result)
  | .remove key => do
    let (map, found) ← map.remove cmp key
    .ok (map, .value found)
  | .removeEntry key => do
    let (map, found) ← map.removeEntry cmp key
    .ok (map, .entry found)
  | .lowerBound key => do
    let found ← map.lowerBound cmp key
    .ok (map, .entry found)
  | .upperBound key => do
    let found ← map.upperBound cmp key
    .ok (map, .entry found)
  | .first => do
    let found ← map.first
    .ok (map, .entry found)
  | .last => do
    let found ← map.last
    .ok (map, .entry found)
  | .range low high calls => do
    let cursor ← map.range cmp low high
    let yielded ← map.rangeCalls cmp calls cursor
    .ok (map, .entries yielded)
  | .read calls => do
    let yielded ← map.read calls
    .ok (map, .entries yielded)
  | .write fs => do
    let (map, yielded) ← map.write fs
    .ok (map, .entries yielded)
  | .clear => do
    let map ← map.clear
    .ok (map, .done)

/-! ## 4. Cursors walk the entries -/

section Cursors

variable {map : OrderedMap K V} {t : AvlTree Nat} {is js : List Nat}

theorem referenceAt_head? (hfull : ∀ i ∈ js, ∃ x, map.tree.items[i]? = some (some x)) :
    map.referenceAt js.head? = .ok (contents map.tree.items js).head? := by
  cases js with
  | nil => rfl
  | cons i js =>
    obtain ⟨x, hx⟩ := hfull i (.head _)
    rw [contents_cons _ hx, head?_cons, referenceAt, Slot.get_eq hx]
    rfl

theorem readCalls_eq (hlink : Linked map.tree.nodes none t) (hd : t.inorder.Nodup)
    (hfull : Full map.tree.items t) (hsplit : t.inorder = is ++ js) (calls : Nat) :
    map.readCalls calls js.head? = .ok (yields calls (contents map.tree.items js)) := by
  induction calls generalizing is js with
  | zero => rfl
  | succ calls ih =>
    cases js with
    | nil =>
      rw [head?_nil, readCalls, readNext, ok_bind]
      simp only
      rw [← head?_nil, ih hsplit]
      rfl
    | cons i js =>
      obtain ⟨x, hx⟩ := hfull i (by rw [hsplit]; simp)
      rw [head?_cons, readCalls, readNext, successor_eq hlink hd hsplit, ok_bind,
        referenceAt, Slot.get_eq hx, ok_bind, ok_bind, ok_bind]
      simp only
      rw [@ih (is ++ [i]) js (by rw [hsplit]; simp), contents_cons _ hx]
      rfl

theorem rangeCalls_eq (cmp : K → K → Ordering) (hlink : Linked map.tree.nodes none t)
    (hd : t.inorder.Nodup) (hfull : Full map.tree.items t) (hsplit : t.inorder = is ++ js)
    (calls : Nat) (upper : Option K) (inclusive : Bool) :
    map.rangeCalls cmp calls ⟨js.head?, upper, inclusive⟩ =
      .ok (yields calls ((contents map.tree.items js).takeWhile fun e =>
        orderedKeyWithinEnd cmp e.1 upper inclusive)) := by
  induction calls generalizing is js with
  | zero => rfl
  | succ calls ih =>
    have hend : map.rangeCalls cmp calls ⟨none, upper, inclusive⟩ = .ok (yields calls []) :=
      @ih t.inorder [] (by simp)
    cases js with
    | nil =>
      rw [head?_nil, rangeCalls, rangeNext, ok_bind]
      simp only
      rw [hend]
      rfl
    | cons i js =>
      obtain ⟨x, hx⟩ := hfull i (by rw [hsplit]; simp)
      rw [head?_cons, rangeCalls, rangeNext]
      simp only
      rw [Slot.get_eq hx, ok_bind, contents_cons _ hx, takeWhile_cons]
      by_cases hin : orderedKeyWithinEnd cmp x.1 upper inclusive = true
      · rw [if_pos hin, if_pos hin, successor_eq hlink hd hsplit, ok_bind, referenceAt,
          Slot.get_eq hx, ok_bind, ok_bind, ok_bind]
        rw [@ih (is ++ [i]) js (by rw [hsplit]; simp)]
        rfl
      · rw [if_neg hin, if_neg hin, ok_bind]
        rw [hend]
        rfl

theorem moveCalls_eq (hlink : Linked map.tree.nodes none t) (hd : t.inorder.Nodup)
    (hfull : ∀ i ∈ js, ∃ x, map.tree.items[i]? = some (some x)) (hsplit : t.inorder = is ++ js)
    (calls : Nat) :
    ∃ map', moveCalls calls map js.head? = .ok (map', yields calls (contents map.tree.items js)) := by
  induction calls generalizing is js map with
  | zero => exact ⟨map, rfl⟩
  | succ calls ih =>
    cases js with
    | nil =>
      obtain ⟨map', e⟩ := ih hlink hfull hsplit
      refine ⟨map', ?_⟩
      rw [head?_nil, moveCalls, moveNext, ok_bind]
      simp only
      rw [← head?_nil, e]
      rfl
    | cons i js =>
      obtain ⟨x, hx⟩ := hfull i (.head _)
      have hnot : i ∉ js := by
        rw [hsplit] at hd
        exact (nodup_cons.mp (nodup_append.mp hd).2.1).1
      have hother : ∀ j ∈ js, (map.tree.items.set i none)[j]? = map.tree.items[j]? := by
        intro j hj
        refine getElem?_set_ne ?_
        rintro rfl
        exact hnot hj
      obtain ⟨map', e⟩ := @ih
        ⟨{ map.tree with items := map.tree.items.set i none, count := map.tree.count - 1 }⟩
        (is ++ [i]) js hlink (fun j hj => by
          obtain ⟨y, hy⟩ := hfull j (.tail _ hj)
          exact ⟨y, (hother j hj).trans hy⟩) (by rw [hsplit]; simp)
      refine ⟨map', ?_⟩
      rw [head?_cons, moveCalls, moveNext, successor_eq hlink hd hsplit, ok_bind,
        takeForIteration, Slot.take_eq hx, ok_bind, ok_bind, ok_bind]
      simp only
      rw [e, contents_cons _ hx, contents_congr hother]
      rfl

theorem writeCalls_eq {cmp : K → K → Ordering} [Std.TransCmp cmp] {free : List Nat}
    (h : Ordered cmp Prod.fst map.tree t free) (hsplit : t.inorder = is ++ js) (fs : List (V → V)) :
    ∃ map', writeCalls fs map js.head? =
        .ok (map', yields fs.length (contents map.tree.items js)) ∧
      Ordered cmp Prod.fst map'.tree t free ∧ map'.tree.capacity = map.tree.capacity ∧
      (∀ j, j ∉ js → map'.tree.items[j]? = map.tree.items[j]?) ∧
      contents map'.tree.items js = writeEntries fs (contents map.tree.items js) := by
  induction fs generalizing is js map with
  | nil =>
    refine ⟨map, rfl, h, rfl, fun _ _ => rfl, ?_⟩
    rw [writeEntries]
  | cons f fs ih =>
    cases js with
    | nil =>
      obtain ⟨map', e, h', hcap, hother, -⟩ := ih h hsplit
      refine ⟨map', ?_, h', hcap, hother, rfl⟩
      rw [head?_nil, writeCalls, writeNext, ok_bind]
      simp only
      rw [← head?_nil, e]
      rfl
    | cons i js =>
      obtain ⟨x, hx⟩ := h.full i (by rw [hsplit]; simp)
      have hnot : i ∉ js := by
        have hd := h.nodup
        rw [hsplit] at hd
        exact (nodup_cons.mp (nodup_append.mp hd).2.1).1
      obtain ⟨h₁, -, -, hjs₁⟩ := @Ordered.update_eq _ _ _ _ _ _ _ _ _ _ _ _ (x.1, f x.2) h hsplit hx
        Std.ReflCmp.compare_self
      obtain ⟨map', e, h', hcap, hother, hjs⟩ := @ih
        ⟨{ map.tree with items := map.tree.items.set i (some (x.1, f x.2)) }⟩ (is ++ [i]) js h₁
        (by rw [hsplit]; simp)
      have hi : map'.tree.items[i]? = some (some (x.1, f x.2)) :=
        (hother i hnot).trans (List.getElem?_set_self (List.getElem_of_getElem? hx).1)
      refine ⟨map', ?_, h', hcap, fun j hj => ?_, ?_⟩
      · rw [head?_cons, writeCalls, writeNext,
          successor_eq h.linked h.nodup hsplit, ok_bind, Slot.update_eq hx, ok_bind, ok_bind]
        simp only
        rw [e, contents_cons _ hx, hjs₁]
        rfl
      · rw [mem_cons, not_or] at hj
        exact (hother j hj.2).trans (getElem?_set_ne (Ne.symm hj.1))
      · rw [contents_cons _ hi, contents_cons _ hx, hjs, hjs₁, writeEntries]

end Cursors

/-! ## 5. Refinement -/

section Refinement

variable {cmp : K → K → Ordering} {map : OrderedMap K V} {a : MapModel cmp V}

/-- **The map holds the entries of the model**, in order. -/
def Refines (map : OrderedMap K V) (a : MapModel cmp V) : Prop :=
  ∃ t free, Ordered cmp Prod.fst map.tree t free ∧
    contents map.tree.items t.inorder = a.map.entries ∧ map.tree.capacity = a.capacity

inductive Divided (map : OrderedMap K V) (a : MapModel cmp V) (key : K) : OrderedTreeSearch → Prop where
  | absent (p : Path Nat) (free : List Nat)
    (hord : Ordered cmp Prod.fst map.tree (Path.plug p .leaf) free)
    (hentries : a.map.entries =
      contents map.tree.items (Path.before p) ++ contents map.tree.items (Path.after p))
    (hbefore : ∀ x ∈ contents map.tree.items (Path.before p), cmp x.1 key = .lt)
    (hafter : ∀ x ∈ contents map.tree.items (Path.after p), cmp x.1 key = .gt) :
    Divided map a key ⟨none, parentOf p, sideOf p⟩
  | present (p : Path Nat) (l : AvlTree Nat) (i : Nat) (r : AvlTree Nat) (free : List Nat) (x : K × V)
    (side : OrderedTreeSide) (hord : Ordered cmp Prod.fst map.tree (Path.plug p (.node l i r)) free)
    (hitem : map.tree.items[i]? = some (some x)) (heq : cmp x.1 key = .eq)
    (hentries : a.map.entries = contents map.tree.items (Path.before p ++ l.inorder) ++
      x :: contents map.tree.items (r.inorder ++ Path.after p))
    (hbefore : ∀ x ∈ contents map.tree.items (Path.before p ++ l.inorder), cmp x.1 key = .lt)
    (hafter : ∀ x ∈ contents map.tree.items (r.inorder ++ Path.after p), cmp x.1 key = .gt) :
    Divided map a key ⟨some i, some i, side⟩

variable [Std.TransCmp cmp]

theorem search_eq (h : Refines map a) (key : K) :
    ∃ result, map.search cmp key = .ok result ∧ Divided map a key result := by
  obtain ⟨t, free, hord, hentries, -⟩ := h
  obtain ⟨result, e, hfound⟩ := hord.search_eq key
  refine ⟨result, e, ?_⟩
  cases hfound with
  | absent p ht hb ha =>
    subst ht
    refine .absent p free hord ?_ hb ha
    rw [← hentries, Path.inorder_plug, AvlTree.inorder_leaf, append_nil, contents_append]
  | present p l i r x side ht hitem heq hb ha =>
    subst ht
    refine .present p l i r free x side hord hitem heq ?_ hb ha
    rw [← hentries, Ordered.contents_plug hitem]

theorem get_eq (h : Refines map a) (key : K) : map.get cmp key = .ok (a.map.get? key) := by
  obtain ⟨result, e, hdiv⟩ := search_eq h key
  rw [get, e, ok_bind, SortedMap.get?]
  cases hdiv with
  | absent p free hord hentries hb ha =>
    rw [SortedMap.entryOf_absent hentries hb ha]
    rfl
  | present p l i r free x side hord hitem heq hentries hb ha =>
    rw [SortedMap.entryOf_present hentries hb heq]
    simp only
    rw [Slot.get_eq hitem]
    rfl

theorem containsKey_eq (h : Refines map a) (key : K) :
    map.containsKey cmp key = .ok (a.map.entryOf key).isSome := by
  obtain ⟨result, e, hdiv⟩ := search_eq h key
  rw [containsKey, e, ok_bind]
  cases hdiv with
  | absent p free hord hentries hb ha =>
    rw [SortedMap.entryOf_absent hentries hb ha]
    rfl
  | present p l i r free x side hord hitem heq hentries hb ha =>
    rw [SortedMap.entryOf_present hentries hb heq]
    rfl

/-- The value of a stored key is written over. -/
theorem update_refines {p : Path Nat} {l r : AvlTree Nat} {i : Nat} {free : List Nat} {x : K × V}
    {key : K} {m : SortedMap cmp V} (hord : Ordered cmp Prod.fst map.tree (Path.plug p (.node l i r)) free)
    (hitem : map.tree.items[i]? = some (some x)) (heq : cmp x.1 key = .eq)
    (hentries : a.map.entries = contents map.tree.items (Path.before p ++ l.inorder) ++
      x :: contents map.tree.items (r.inorder ++ Path.after p))
    (hb : ∀ x ∈ contents map.tree.items (Path.before p ++ l.inorder), cmp x.1 key = .lt)
    (hcap : map.tree.capacity = a.capacity) (value : V)
    (hm : m.entries = insertEntry cmp key value a.map.entries) :
    Refines ⟨{ map.tree with items := map.tree.items.set i (some (x.1, value)) }⟩
      { a with map := m } := by
  obtain ⟨h', his, hi, -⟩ := @Ordered.update_eq _ _ _ _ _ _ _ _ _ _ _ _ (x.1, value) hord
    (inorder_plug_node ..) hitem Std.ReflCmp.compare_self
  refine ⟨_, _, h', ?_, hcap⟩
  rw [inorder_plug_node, contents_append, his, hi, hm, hentries,
    insertEntry_present hb heq]

theorem getMut_eq (h : Refines map a) (key : K) (f : V → V) :
    ∃ map', map.getMut cmp key f = .ok (map', a.map.get? key) ∧
      Refines map' { a with map := a.map.modify key f } := by
  obtain ⟨result, e, hdiv⟩ := search_eq h key
  rw [getMut, e, ok_bind, SortedMap.modify, SortedMap.get?]
  cases hdiv with
  | absent p free hord hentries hb ha =>
    rw [SortedMap.entryOf_absent hentries hb ha]
    exact ⟨map, rfl, h⟩
  | present p l i r free x side hord hitem heq hentries hb ha =>
    obtain ⟨-, -, -, -, hcap⟩ := h
    rw [SortedMap.entryOf_present hentries hb heq]
    refine ⟨_, ?_, update_refines hord hitem heq hentries hb hcap (f x.2) rfl⟩
    simp only
    rw [Slot.update_eq hitem]
    rfl

omit [Std.TransCmp cmp] in
theorem Refines.length_eq (h : Refines map a) : map.tree.count = a.map.entries.length := by
  obtain ⟨t, free, hord, hentries, -⟩ := h
  have hall : ∀ is : List Nat, (∀ i ∈ is, ∃ x, map.tree.items[i]? = some (some x)) →
      (contents map.tree.items is).length = is.length := by
    intro is
    induction is with
    | nil => intro _; rfl
    | cons i is ih =>
      intro hfull
      obtain ⟨x, hx⟩ := hfull i (.head _)
      rw [contents_cons _ hx, length_cons, length_cons,
        ih fun j hj => hfull j (.tail _ hj)]
  rw [← hentries, hall t.inorder hord.full, hord.count_eq]

theorem insert_eq (target : Target) (h : Refines map a) (key : K) (value : V) :
    ∃ map' answer, map.insert target cmp key value = .ok (map', answer) ∧
      (a.step target (.insert key value)).2 = .inserted answer ∧
      Refines map' (a.step target (.insert key value)).1 := by
  have hlen := h.length_eq
  obtain ⟨result, e, hdiv⟩ := search_eq h key
  rw [insert, e, ok_bind, MapModel.step, SortedMap.get?]
  cases hdiv with
  | present p l i r free x side hord hitem heq hentries hb ha =>
    obtain ⟨-, -, -, -, hcap⟩ := h
    rw [SortedMap.entryOf_present hentries hb heq]
    refine ⟨_, .ok (some x.2), ?_, rfl, update_refines hord hitem heq hentries hb hcap value rfl⟩
    simp only
    rw [Slot.update_eq hitem]
    rfl
  | absent p free hord hentries hb ha =>
    have hcap : map.tree.capacity = a.capacity := h.choose_spec.choose_spec.2.2
    rw [SortedMap.entryOf_absent hentries hb ha]
    simp only [Option.map_none, MapModel.grown]
    rw [← hlen, ← hcap]
    rcases OrderedTree.reserve_eq target hord.toRepresents 1 with
      ⟨err, hgrow, e₁⟩ | ⟨capacity, tree', free', hgrow, e₁, h', hcap', hcount, hroom, hsame⟩
    · rw [hgrow, reserve, e₁]
      exact ⟨map, .error err, rfl, rfl, h⟩
    · obtain ⟨tree'', t'', free'', i, e₂, hord'', hcontents, hcap''⟩ :=
        @Ordered.insertAt_eq _ _ _ _ _ _ _ _ (key, value) _ _ hord hb ha h' (by omega) hsame
      rw [hgrow, reserve, e₁, ok_bind, ok_bind]
      refine ⟨⟨tree''⟩, .ok none, ?_, rfl, t'', free'', hord'', ?_, hcap''.trans hcap'⟩
      · rw [e₂]
        rfl
      · rw [hcontents]
        show _ = insertEntry cmp key value a.map.entries
        rw [hentries, insertEntry_absent hb ha]

theorem removeEntry_eq (h : Refines map a) (key : K) :
    ∃ map', map.removeEntry cmp key = .ok (map', a.map.entryOf key) ∧
      Refines map' { a with map := a.map.erase key } := by
  obtain ⟨result, e, hdiv⟩ := search_eq h key
  rw [removeEntry, e, ok_bind]
  cases hdiv with
  | absent p free hord hentries hb ha =>
    rw [SortedMap.entryOf_absent hentries hb ha]
    obtain ⟨t, free, hord, hcontents, hcap⟩ := h
    exact ⟨map, rfl, t, free, hord,
      hcontents.trans (SortedMap.erase_absent hentries hb ha).symm, hcap⟩
  | present p l i r free x side hord hitem heq hentries hb ha =>
    obtain ⟨-, -, -, -, hcap⟩ := h
    obtain ⟨tree', t', free', e', hord', hcontents, hcap'⟩ := hord.removeAt_eq hitem
    rw [SortedMap.entryOf_present hentries hb heq]
    refine ⟨⟨tree'⟩, ?_, t', free', hord', ?_, hcap'.trans hcap⟩
    · simp only
      rw [e']
      rfl
    · rw [hcontents, SortedMap.erase_present hentries hb heq ha]

/-- A range starts at the first entry that is not below it. -/
theorem boundStart_eq {t : AvlTree Nat} {free : List Nat} (hord : Ordered cmp Prod.fst map.tree t free)
    (low : Bound K) :
    ∃ is js, t.inorder = is ++ js ∧ map.boundStart cmp low = .ok js.head? ∧
      (∀ x ∈ contents map.tree.items is, low.above cmp x.1 = false) ∧
      ∀ x ∈ contents map.tree.items js, low.above cmp x.1 = true := by
  have hbound : ∀ (key : K) (inclusive : Bool), ∃ is js, t.inorder = is ++ js ∧
      map.tree.bound (fun item => cmp item.1 key) inclusive = .ok js.head? ∧
      (∀ x ∈ contents map.tree.items is, Below (fun item => cmp item.1 key) inclusive x) ∧
      ∀ x ∈ contents map.tree.items js, ¬Below (fun item => cmp item.1 key) inclusive x := by
    intro key inclusive
    obtain ⟨result, e, is, js, hsplit, rfl, his, hjs⟩ := bound_eq inclusive
      hord.toRepresents (hord.increasing.ascending key)
    exact ⟨is, js, hsplit, e, his, hjs⟩
  cases low with
  | unbounded =>
    refine ⟨[], t.inorder, rfl, ?_, fun _ hx => absurd hx not_mem_nil, fun _ _ => rfl⟩
    rw [boundStart, hord.root_eq, minimum_eq hord.linked hord.nodup]
  | included key =>
    obtain ⟨is, js, hsplit, e, his, hjs⟩ := hbound key true
    refine ⟨is, js, hsplit, e, fun x hx => ?_, fun x hx => ?_⟩
    · simpa [Bound.above, Below] using his x hx
    · simpa [Bound.above, Below] using hjs x hx
  | excluded key =>
    obtain ⟨is, js, hsplit, e, his, hjs⟩ := hbound key false
    refine ⟨is, js, hsplit, e, fun x hx => ?_, fun x hx => ?_⟩
    · have hx' := his x hx
      cases hc : cmp x.1 key <;> simp_all [Bound.above, Below]
    · have hx' := hjs x hx
      cases hc : cmp x.1 key <;> simp_all [Bound.above, Below]

/-- The first entry that is not below a bound. -/
theorem referenceAt_boundStart (h : Refines map a) (low : Bound K) :
    (do
      let index ← map.boundStart cmp low
      map.referenceAt index) = .ok (a.map.entries.find? fun e => low.above cmp e.1) := by
  obtain ⟨t, free, hord, hentries, -⟩ := h
  obtain ⟨is, js, hsplit, e, his, hjs⟩ := boundStart_eq hord low
  rw [e, ok_bind, referenceAt_head? fun i hi => hord.full i (by rw [hsplit]; simp [hi]), ← hentries,
    hsplit, contents_append, SortedMap.find?_append_head? his hjs]

omit [Std.TransCmp cmp] in
theorem first_eq (h : Refines map a) : map.first = .ok a.map.entries.head? := by
  obtain ⟨t, free, hord, hentries, -⟩ := h
  rw [first, hord.root_eq, minimum_eq hord.linked hord.nodup, ok_bind,
    referenceAt_head? hord.full, hentries]

omit [Std.TransCmp cmp] in
theorem last_eq (h : Refines map a) : map.last = .ok a.map.entries.getLast? := by
  obtain ⟨t, free, hord, hentries, -⟩ := h
  rw [last, hord.root_eq, maximum_eq hord.linked hord.nodup, ok_bind, ← hentries]
  rcases eq_nil_or_concat t.inorder with hnil | ⟨is, i, hlast⟩
  · rw [hnil]
    rfl
  · rw [concat_eq_append] at hlast
    obtain ⟨x, hx⟩ := hord.full i (by rw [hlast]; simp)
    have hi : contents map.tree.items [i] = [x] := contents_cons [] hx
    rw [hlast, contents_append, hi, getLast?_concat, getLast?_concat,
      referenceAt, Slot.get_eq hx]
    rfl

omit [Std.TransCmp cmp] in
theorem orderedKeyWithinEnd_eq (key : K) (high : Bound K) :
    orderedKeyWithinEnd cmp key (orderedBoundEnd high).1 (orderedBoundEnd high).2 =
      high.below cmp key := by
  cases high with
  | unbounded => rfl
  | included upper | excluded upper =>
    simp only [orderedKeyWithinEnd, orderedBoundEnd, Bound.below]
    cases cmp key upper <;> rfl

theorem range_eq (h : Refines map a) (low high : Bound K) (calls : Nat) :
    (do
      let cursor ← map.range cmp low high
      map.rangeCalls cmp calls cursor) = .ok (yields calls (a.map.range low high)) := by
  obtain ⟨t, free, hord, hentries, -⟩ := h
  obtain ⟨is, js, hsplit, e, his, hjs⟩ := boundStart_eq hord low
  have hdiv : a.map.entries = contents map.tree.items is ++ contents map.tree.items js := by
    rw [← hentries, hsplit, contents_append]
  rw [range, e, ok_bind, ok_bind, rangeCalls_eq cmp hord.linked hord.nodup hord.full hsplit,
    SortedMap.range_eq hdiv his hjs]
  simp only [orderedKeyWithinEnd_eq]

omit [Std.TransCmp cmp] in
theorem read_eq (h : Refines map a) (calls : Nat) :
    map.read calls = .ok (yields calls a.map.entries) := by
  obtain ⟨t, free, hord, hentries, -⟩ := h
  rw [read, hord.root_eq, minimum_eq hord.linked hord.nodup, ok_bind,
    readCalls_eq hord.linked hord.nodup hord.full (nil_append _).symm, hentries]

omit [Std.TransCmp cmp] in
theorem move_eq (h : Refines map a) (calls : Nat) :
    ∃ map', map.move calls = .ok (map', yields calls a.map.entries) := by
  obtain ⟨t, free, hord, hentries, -⟩ := h
  obtain ⟨map', e⟩ := moveCalls_eq hord.linked hord.nodup hord.full (nil_append _).symm calls
  refine ⟨map', ?_⟩
  rw [move, hord.root_eq, minimum_eq hord.linked hord.nodup, ok_bind, e, hentries]

theorem write_eq (h : Refines map a) (fs : List (V → V)) :
    ∃ map', map.write fs = .ok (map', yields fs.length a.map.entries) ∧
      Refines map' { a with map := a.map.write fs } := by
  obtain ⟨t, free, hord, hentries, hcap⟩ := h
  obtain ⟨map', e, h', hcap', -, hcontents⟩ := writeCalls_eq hord (nil_append _).symm fs
  refine ⟨map', ?_, t, free, h', ?_, hcap'.trans hcap⟩
  · rw [write, hord.root_eq, minimum_eq hord.linked hord.nodup, ok_bind, e, hentries]
  · rw [hcontents, hentries]
    rfl

omit [Std.TransCmp cmp] in
theorem clear_eq (h : Refines map a) :
    ∃ map', map.clear = .ok map' ∧ Refines map' { a with map := .empty cmp V } := by
  obtain ⟨t, free, hord, -, hcap⟩ := h
  obtain ⟨tree', free', e, hrep, hcap'⟩ := OrderedTree.clear_eq hord.length_eq
  refine ⟨⟨tree'⟩, ?_, .leaf, free', ⟨hrep, List.Pairwise.nil⟩, rfl, hcap'.trans hcap⟩
  rw [clear, e]
  rfl

theorem reserve_eq (target : Target) (h : Refines map a) (additional : Nat) :
    ∃ map' answer, map.reserve target additional = .ok (map', answer) ∧
      (a.step target (.reserve additional)).2 = .reserved answer ∧
      Refines map' (a.step target (.reserve additional)).1 := by
  have hlen := h.length_eq
  obtain ⟨t, free, hord, hentries, hcap⟩ := h
  rw [reserve, MapModel.step, MapModel.grown, ← hlen, ← hcap]
  rcases OrderedTree.reserve_eq target hord.toRepresents additional with
    ⟨err, hgrow, e⟩ | ⟨capacity, tree', free', hgrow, e, h', hcap', -, -, hsame⟩
  · rw [hgrow, e]
    exact ⟨map, .error err, rfl, rfl, t, free, hord, hentries, hcap⟩
  · rw [hgrow, e]
    have hcontents := contents_congr hsame
    refine ⟨⟨tree'⟩, .ok (), rfl, rfl, t, free', ⟨h', ?_⟩, hcontents.trans hentries, hcap'⟩
    rw [hcontents]
    exact hord.increasing

/-- **One operation** answers as the sorted map does. -/
theorem step_refines (target : Target) (h : Refines map a) (op : MapOp K V) :
    ∃ map', map.step target cmp op = .ok (map', (a.step target op).2) ∧
      Refines map' (a.step target op).1 := by
  cases op with
  | length => exact ⟨map, by rw [step, length, h.length_eq]; rfl, h⟩
  | capacity =>
    obtain ⟨t, free, hord, hentries, hcap⟩ := h
    exact ⟨map, by rw [step, capacity, hcap]; rfl, t, free, hord, hentries, hcap⟩
  | isEmpty =>
    refine ⟨map, ?_, h⟩
    rw [step, isEmpty, h.length_eq, MapModel.step]
    cases a.map.entries <;> rfl
  | reserve additional =>
    obtain ⟨map', answer, e, hanswer, h'⟩ := reserve_eq target h additional
    exact ⟨map', by rw [step, e, hanswer]; rfl, h'⟩
  | get key => exact ⟨map, by rw [step, get_eq h]; rfl, h⟩
  | getMut key f =>
    obtain ⟨map', e, h'⟩ := getMut_eq h key f
    exact ⟨map', by rw [step, e]; rfl, h'⟩
  | containsKey key => exact ⟨map, by rw [step, containsKey_eq h]; rfl, h⟩
  | insert key value =>
    obtain ⟨map', answer, e, hanswer, h'⟩ := insert_eq target h key value
    exact ⟨map', by rw [step, e, hanswer]; rfl, h'⟩
  | remove key =>
    obtain ⟨map', e, h'⟩ := removeEntry_eq h key
    exact ⟨map', by rw [step, remove, e]; rfl, h'⟩
  | removeEntry key =>
    obtain ⟨map', e, h'⟩ := removeEntry_eq h key
    exact ⟨map', by rw [step, e]; rfl, h'⟩
  | lowerBound key =>
    have e := referenceAt_boundStart h (.included key)
    exact ⟨map, congrArg (· >>= _) e, h⟩
  | upperBound key =>
    have e := referenceAt_boundStart h (.excluded key)
    exact ⟨map, congrArg (· >>= _) e, h⟩
  | first => exact ⟨map, by rw [step, first_eq h]; rfl, h⟩
  | last => exact ⟨map, by rw [step, last_eq h]; rfl, h⟩
  | range low high calls =>
    have e := range_eq h low high calls
    refine ⟨map, ?_, h⟩
    rw [step, ← bind_assoc, e]
    rfl
  | read calls => exact ⟨map, by rw [step, read_eq h]; rfl, h⟩
  | write fs =>
    obtain ⟨map', e, h'⟩ := write_eq h fs
    exact ⟨map', by rw [step, e]; rfl, h'⟩
  | clear =>
    obtain ⟨map', e, h'⟩ := clear_eq h
    exact ⟨map', by rw [step, e]; rfl, h'⟩

/-- **The ordered map refines a finite sorted map**: every sequence of operations on a new map is
    answered as the model answers it, the map at its end can be moved out in the model's order, and
    nothing panics. A reservation that fails leaves the model, and so the map, as it was
    (`MapModel.step`). -/
theorem ordered_map_refines (target : Target) (capacity : Nat) (ops : List (MapOp K V)) :
    (∃ e, construct target capacity = .ok (.error e : Except _ (OrderedMap K V))) ∨
    ∃ map map', construct target capacity = .ok (.ok map) ∧
      execute (step target cmp) map ops =
        .ok (map', (perform (MapModel.step target) ⟨.empty cmp V, capacity⟩ ops).2) ∧
      Refines map' (perform (MapModel.step target) ⟨.empty cmp V, capacity⟩ ops).1 ∧
      ∀ calls, ∃ moved, map'.move calls =
        .ok (moved, yields calls
          (perform (MapModel.step target) ⟨.empty cmp V, capacity⟩ ops).1.map.entries) := by
  rcases construct_eq target capacity with
    ⟨err, -, e⟩ | ⟨tree, free, -, e, hrep, hcap⟩
  · exact .inl ⟨err, by rw [construct, e]; rfl⟩
  · refine .inr ?_
    have h₀ : Refines ⟨tree⟩ ⟨.empty cmp V, capacity⟩ :=
      ⟨.leaf, free, ⟨hrep, List.Pairwise.nil⟩, rfl, hcap⟩
    obtain ⟨map', hrun, h'⟩ := execute_simulates (R := Refines)
      (fun _ _ op h => step_refines target h op) h₀ ops
    exact ⟨⟨tree⟩, map', by rw [construct, e]; rfl, hrun, h', fun calls => move_eq h' calls⟩

/-- Two entries, a range above the first, and a removal. -/
theorem ordered_map_refines_numbers :
    let target : Target := ⟨2 ^ 64 - 1, fun _ => .ok (), fun _ => .ok ()⟩
    let ops : List (MapOp Nat Nat) :=
      [.insert 2 20, .insert 1 10, .range (.excluded 1) .unbounded 2, .remove 2]
    ∃ map map', construct target 0 = .ok (.ok map) ∧
      execute (step target (compare : Nat → Nat → Ordering)) map ops =
        .ok (map', [(.insert 2 20, .inserted (.ok none)), (.insert 1 10, .inserted (.ok none)),
          (.range (.excluded 1) .unbounded 2, .entries [some (2, 20), none]),
          (.remove 2, .value (some 20))]) := by
  intro target ops
  rcases @ordered_map_refines Nat Nat compare _ target 0 ops with
    ⟨e, h⟩ | ⟨map, map', h, hrun, -⟩
  · cases h
  · exact ⟨map, map', h, hrun⟩

end Refinement

end OrderedMap

end Bray.Collection
