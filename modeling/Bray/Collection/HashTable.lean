/-
  File:      Bray/Collection/HashTable.lean
  Subject:   THE HASH TABLE (std/collection/hash_table.bray): linear probing in two buffers, one of words
    (a flag and the retained bits of a hash), one of items.

  The loops that probe are given as many turns as there are buckets, where the source stops at an empty
  bucket; where the turns run out the model says `endless`.
-/
import Bray.Collection.Memory
import Bray.Lib.Probe
import Mathlib

namespace Bray.Collection

open Bray.Lib

/-- A target whose words have `bits + 1` bits. -/
structure HashTarget extends Target where
  bits : Nat
  usizeMax_eq : usizeMax = 2 ^ (bits + 1) - 1

namespace HashTarget

/-- `HASH_TABLE_HASH_MASK` -/
def mask (target : HashTarget) : Nat := target.usizeMax >>> 1

/-- `HASH_TABLE_OCCUPIED`, the complement of the mask -/
def occupied (target : HashTarget) : Nat := target.usizeMax ^^^ target.mask

/-- `hash_table_fingerprint` of a `u128` -/
def fingerprint (target : HashTarget) (hash : Nat) : Nat :=
  (hash % (target.usizeMax + 1)) &&& target.mask

end HashTarget

structure HashTable (Item : Type) where
  buckets : List Nat
  items : List (Option Item)
  count : Nat

variable {Item : Type}

namespace HashTable

/-! ## 1. Buckets -/

/-- `HASH_TABLE_EMPTY` -/
def empty : Nat := 0

/-- `HASH_TABLE_MINIMUM_BUCKETS` -/
def minimumBuckets : Nat := 8

def bucketCapacity (bucketCount : Nat) : Nat := bucketCount - bucketCount / 4

/-- The loop of `hash_table_bucket_count`; every turn at least adds one to the count. -/
def bucketCountLoop (usizeMax capacity : Nat) : Nat → Nat → Except MemoryLayoutError Nat
  | 0, bucketCount => .ok bucketCount
  | turns + 1, bucketCount =>
    if bucketCapacity bucketCount < capacity then
      if bucketCount > usizeMax / 2 then .error .sizeOverflow
      else bucketCountLoop usizeMax capacity turns (bucketCount * 2)
    else .ok bucketCount

def bucketCount (usizeMax capacity : Nat) : Except MemoryLayoutError Nat :=
  if capacity = 0 then .ok 0
  else bucketCountLoop usizeMax capacity capacity minimumBuckets

def newBuckets (target : Target) (capacity : Nat) : Except MemoryLayoutError Nat := do
  let count ← bucketCount target.usizeMax capacity
  rawBuffer target.first count
  rawBuffer target.second count
  .ok count

def construct (target : Target) (capacity : Nat) : Except MemoryLayoutError (HashTable Item) := do
  let count ← newBuckets target capacity
  .ok ⟨List.replicate count empty, List.replicate count none, 0⟩

def capacity (table : HashTable Item) : Nat := bucketCapacity table.buckets.length

def bucketIndex (hash bucketCount : Nat) : Except Panic Nat :=
  if bucketCount = 0 then .error .divisionByZero else .ok (hash % bucketCount)

/-- `hash_table_next` -/
abbrev next (index bucketCount : Nat) : Nat := Probe.next bucketCount index

/-- `hash_table_probe_distance` -/
abbrev probeDistance (ideal actual bucketCount : Nat) : Nat := Probe.distance bucketCount ideal actual

def word (buckets : List Nat) (index : Nat) : Except Panic Nat :=
  match buckets[index]? with
  | some w => .ok w
  | none => .error .outOfRange

variable (target : HashTarget)

/-- `hash_table_hash` -/
def hashAt (buckets : List Nat) (index : Nat) : Except Panic Nat := do
  let w ← word buckets index
  .ok (w &&& target.mask)

/-- `hash_table_occupied` -/
def occupiedAt (buckets : List Nat) (index : Nat) : Except Panic Bool := do
  let w ← word buckets index
  .ok ((w &&& target.occupied) != 0)

/-- A word is assigned. -/
def assign (buckets : List Nat) (index w : Nat) : Except Panic (List Nat) :=
  if index < buckets.length then .ok (buckets.set index w) else .error .outOfRange

def write (table : HashTable Item) (item : Item) (hash index : Nat) :
  Except Panic (HashTable Item) := do
  if ← occupiedAt target table.buckets index then .error .hashSlotOccupied
  else
    let items ← Slot.write table.items index item
    let buckets ← assign table.buckets index ((hash &&& target.mask) ||| target.occupied)
    .ok { table with buckets := buckets, items := items }

def take (table : HashTable Item) (index : Nat) : Except Panic (HashTable Item × Item) := do
  let (item, items) ← Slot.take table.items index
  let buckets ← assign table.buckets index empty
  .ok ({ table with buckets := buckets, items := items }, item)

/-! ## 2. Probing -/

/-- The loop of `hash_table_find_hash`, with the number of buckets left to examine. -/
def findHashLoop (buckets : List Nat) (hash : Nat) : Nat → Nat → Except Panic (Option Nat)
  | 0, _ => .ok none
  | left + 1, index => do
    let w ← word buckets index
    if (w &&& target.occupied) = 0 then .ok none
    else if (w &&& target.mask) = hash then .ok (some index)
    else findHashLoop buckets hash left (next index buckets.length)

/-- Where `hash_table_find_hash` starts. -/
def findStart (hash bucketCount : Nat) : Option Nat → Except Panic Nat
  | some index => .ok (next index bucketCount)
  | none => bucketIndex hash bucketCount

def findHash (table : HashTable Item) (after : Option Nat) (hash : Nat) :
  Except Panic (Option Nat) :=
  if table.buckets.length = 0 then .ok none
  else do
    let index ← findStart hash table.buckets.length after
    findHashLoop target table.buckets hash table.buckets.length index

def insertLoop (table : HashTable Item) (item : Item) (hash : Nat) :
  Nat → Nat → Except Panic (HashTable Item × Nat)
  | 0, _ => .error .endless
  | turns + 1, index => do
    if ← occupiedAt target table.buckets index then
      insertLoop table item hash turns (next index table.buckets.length)
    else
      let table ← write target table item hash index
      .ok ({ table with count := table.count + 1 }, index)

/-- `hash_table_insert_available` -/
def insertAvailable (table : HashTable Item) (item : Item) (hash : Nat) :
  Except Panic (HashTable Item × Nat) := do
  let index ← bucketIndex hash table.buckets.length
  insertLoop target table item hash table.buckets.length index

/-! ## 3. Growing -/

/-- `hash_table_transfer_at` -/
def transferAt (source destination : HashTable Item) (index : Nat) :
  Except Panic (HashTable Item × HashTable Item) := do
  let hash ← hashAt target source.buckets index
  let (source, item) ← source.take index
  let (destination, _) ← insertAvailable target destination item hash
  .ok (source, destination)

/-- The loop of `hash_table_reallocate`, from `index` on. -/
def transferLoop : Nat → Nat → HashTable Item → HashTable Item → Except Panic (HashTable Item)
  | 0, _, _, destination => .ok destination
  | left + 1, index, source, destination => do
    if ← occupiedAt target source.buckets index then
      let (source, destination) ← transferAt target source destination index
      transferLoop left (index + 1) source destination
    else transferLoop left (index + 1) source destination

def reallocate (table : HashTable Item) (bucketCount : Nat) :
  Except Panic (HashTable Item × Except MemoryLayoutError Unit) :=
  match construct target.toTarget (bucketCapacity bucketCount) with
  | .error e => .ok (table, .error e)
  | .ok replacement => do
    let replacement ← transferLoop target table.buckets.length 0 table replacement
    .ok (replacement, .ok ())

def reserve (table : HashTable Item) (additional : Nat) :
  Except Panic (HashTable Item × Except MemoryLayoutError Unit) :=
  if additional > target.usizeMax - table.count then .ok (table, .error .sizeOverflow)
  else if table.count + additional ≤ table.capacity then .ok (table, .ok ())
  else match bucketCount target.usizeMax (table.count + additional) with
    | .error e => .ok (table, .error e)
    | .ok count => reallocate target table count

/-! ## 4. Removal -/

/-- The loop of `hash_table_close_hole` -/
def closeLoop (table : HashTable Item) : Nat → Nat → Nat → Except Panic (HashTable Item)
  | 0, _, _ => .error .endless
  | turns + 1, opening, current => do
    if ← occupiedAt target table.buckets current then
      let hash ← hashAt target table.buckets current
      let ideal ← bucketIndex hash table.buckets.length
      let n := table.buckets.length
      if probeDistance ideal current n > probeDistance ideal opening n then
        let (table, item) ← table.take current
        let table ← write target table item hash opening
        closeLoop table turns current (next current n)
      else closeLoop table turns opening (next current n)
    else .ok table

def closeHole (table : HashTable Item) (hole : Nat) : Except Panic (HashTable Item) := do
  let n := table.buckets.length
  let table ← closeLoop target table n hole (next hole n)
  .ok { table with count := table.count - 1 }

def removeAt (table : HashTable Item) (index : Nat) : Except Panic (HashTable Item × Item) := do
  let (table, removed) ← table.take index
  let table ← closeHole target table index
  .ok (table, removed)

/-- The loop of `hash_table_clear_storage`, from `index` on. -/
def clearLoop : Nat → Nat → HashTable Item → Except Panic (HashTable Item)
  | 0, _, table => .ok table
  | left + 1, index, table => do
    if ← occupiedAt target table.buckets index then
      let (table, _) ← table.take index
      clearLoop left (index + 1) table
    else clearLoop left (index + 1) table

def clear (table : HashTable Item) : Except Panic (HashTable Item) := do
  let table ← clearLoop target table.buckets.length 0 table
  .ok { table with count := 0 }

end HashTable

end Bray.Collection
