/-
  File:      Bray/Pool/Records.lean
  Subject:   RECORDS AND THEIR CHAINS, as record_pool.bray and records.bray compute them. Definitions
    only.

  One link serves the free list, the chains and the segments of a chain. The header of a chain is a
  value: the functions take it and hand it back.
-/
import Bray.Pool.Data

namespace Bray.Pool

open Bray.Lib

variable {V α : Type}

namespace ReportPool

/-- All records, in the order of their handles. -/
def records (pool : ReportPool V) : List (ReportRecord V) := Slab.flat (held pool.slabs)

/-- The link of a record. -/
def next (pool : ReportPool V) (handle : Nat) : Nat :=
  if handle = 0 then 0 else ((pool.records[handle - 1]?).map ReportRecord.next).getD 0

/-- `record`. -/
def record (pool : ReportPool V) (handle : Nat) : Option (ReportRecord V) :=
  if handle = 0 ∨ pool.total < handle then none
  else do
    let index ← pool.slabs
    Slab.get index.items handle

/-- What is written through the reference that `record` returns. -/
def store (pool : ReportPool V) (handle : Nat) (entry : ReportRecord V) : ReportPool V :=
  { pool with
    slabs := pool.slabs.map fun index =>
      index.overwrite (fun slabs => Slab.put slabs handle entry) fun slabs => Slab.length_put slabs handle entry }

end ReportPool

/-! ## 1. Growth -/

/-- The loop that fills a new slab: each entry is linked to the one before it. -/
def fill (make : Nat → Nat → α) (first : Nat) : Nat → RawBuffer α → Nat → Nat → Option (RawBuffer α × Nat)
  | 0, buffer, head, _ => some (buffer, head)
  | turns + 1, buffer, head, index => do
    let buffer ← buffer.initializeSpare (make head index)
    fill make first turns buffer (first + index) (index + 1)

/-- A record of a new slab. -/
def freshRecord [Inhabited V] (head : Nat) (_index : Nat) : ReportRecord V :=
  { value := default
    next := head
    segment := .blank
    segmentTail := 0
    segmentCount := 0 }

/-- How many records a growth adds: what is required, or as many as there are. -/
def additionalRecords (total limit required : Nat) : Nat :=
  if required < total ∧ total ≤ limit then total else required

/-- A filled slab is put behind the others. -/
def installRecords [Inhabited V] (pool : ReportPool V) (additional : Nat)
  (storage : RawBuffer (ReportRecord V)) : Option (ReportPool V) := do
  let first := pool.total + 1
  let (slab, head) ← fill freshRecord first additional storage pool.free 0
  let index ← pool.slabs
  let index ← index.initializeSpare ⟨first, slab.items, ()⟩
  some { pool with
    slabs := some index
    free := head
    available := pool.available + additional
    total := pool.total + additional }

/-- `reserve_records`. -/
def reserveRecords [Inhabited V] (target : Target) (pool : ReportPool V) (count : Nat) (prepared : Prepared V) :
  Option (Reply Request Bool × ReportPool V × Prepared V) :=
  if count ≤ pool.available then some (.ok true, pool, prepared)
  else do
    let required := count - pool.available
    let limit ← checkedSub target.recordLimit pool.total
    if limit < required then some (.ok false, pool, prepared)
    else
      let additional := additionalRecords pool.total limit required
      let (reply, slabs, recordSlabs) := reserveBuffer target pool.slabs prepared.recordSlabs
      let pool := { pool with slabs := slabs }
      let prepared := { prepared with recordSlabs := recordSlabs }
      match reply with
      | .error capacity => some (.error (.recordSlabs capacity), pool, prepared)
      | .ok false => some (.ok false, pool, prepared)
      | .ok true =>
        match prepared.records with
        | none => some (.error (.records additional), pool, prepared)
        | some storage =>
          if storage.capacity < additional ∨ storage.initialized ≠ 0 then
            some (.error (.records additional), pool, prepared)
          else do
            let pool ← installRecords pool additional storage
            some (.ok true, pool, { prepared with records := none })

/-! ## 2. Chains -/

/-- `activate_record`. -/
def activateRecord (pool : ReportPool V) : Option (Nat × ReportPool V) :=
  if pool.free = 0 then none
  else do
    let entry ← pool.record pool.free
    let available ← checkedSub pool.available 1
    some (pool.free, { pool.store pool.free { entry with next := 0 } with
      free := entry.next
      available := available })

/-- `append_record`. -/
def appendRecord (pool : ReportPool V) (chain : ReportRecords) (handle : Nat) :
  Option (ReportPool V × ReportRecords) :=
  if chain.count = 0 then some (pool, ⟨handle, handle, chain.count + 1⟩)
  else do
    let last ← pool.record chain.tail
    some (pool.store chain.tail { last with next := handle }, ⟨chain.head, handle, chain.count + 1⟩)

/-- `detach_record`. -/
def detachRecord (pool : ReportPool V) (chain : ReportRecords) :
  Option (Nat × ReportPool V × ReportRecords) :=
  if chain.count = 0 then none
  else do
    let first ← pool.record chain.head
    some (chain.head, pool.store chain.head { first with next := 0 },
      ⟨first.next, if chain.count - 1 = 0 then 0 else chain.tail, chain.count - 1⟩)

/-- The loop of an admission: records are activated and put behind a chain. -/
def admitLoop : Nat → ReportPool V → ReportRecords → Option (ReportPool V × ReportRecords)
  | 0, pool, output => some (pool, output)
  | remaining + 1, pool, output => do
    let (handle, pool) ← activateRecord pool
    let (pool, output) ← appendRecord pool output handle
    admitLoop remaining pool output

/-- `admit_record_values`, while the lock is held: the status and the chain, or what to prepare
  before the next attempt. -/
def admitRecordValues [Inhabited V] (target : Target) (pool : ReportPool V) (count : Nat) (output : ReportRecords)
  (prepared : Prepared V) :
  Option (Reply Request (Nat × ReportRecords) × ReportPool V × Prepared V) :=
  if target.usizeMax - pool.credits < count then some (.ok (1, output), pool, prepared)
  else do
    let (reply, pool, prepared) ← reserveRecords target pool (pool.credits + count) prepared
    match reply with
    | .error request => some (.error request, pool, prepared)
    | .ok false => some (.ok (1, output), pool, prepared)
    | .ok true => do
      let (pool, output) ← admitLoop count pool output
      some (.ok (0, output), pool, prepared)

/-- `take_record_values`. -/
def takeRecordValues : Nat → ReportPool V → ReportRecords → ReportRecords →
  Option (ReportPool V × ReportRecords × ReportRecords)
  | 0, pool, input, output => some (pool, input, output)
  | remaining + 1, pool, input, output => do
    let (handle, pool, input) ← detachRecord pool input
    let (pool, output) ← appendRecord pool output handle
    takeRecordValues remaining pool input output

/-- `append_record_values`. -/
def appendRecordValues (pool : ReportPool V) (left right : ReportRecords) :
  Option (ReportPool V × ReportRecords × ReportRecords) :=
  if right.count = 0 then some (pool, left, right)
  else if left.count = 0 then
    some (pool, ⟨right.head, right.tail, left.count + right.count⟩, emptyRecords)
  else do
    let last ← pool.record left.tail
    some (pool.store left.tail { last with next := right.head },
      ⟨left.head, right.tail, left.count + right.count⟩, emptyRecords)

/-- `pop_record_value`. -/
def popRecordValue [Inhabited V] (pool : ReportPool V) (value : ReportRecords) :
  Option (V × ReportPool V × ReportRecords) := do
  let (handle, pool, value) ← detachRecord pool value
  let entry ← pool.record handle
  let pool := pool.store handle { entry with
    value := default
    segmentCount := 0
    segmentTail := 0
    next := pool.free }
  some (entry.value, { pool with free := handle, available := pool.available + 1 }, value)

/-! ## 3. Segments -/

/-- `report_segment_mark`. -/
def reportSegmentMark (pool : ReportPool V) (chain : ReportRecords) (segment : ReportSegment) :
  Option (ReportPool V) := do
  let first ← pool.record chain.head
  some (pool.store chain.head { first with
    segment := segment
    segmentTail := chain.tail
    segmentCount := chain.count })

/-- `record_segment_value`. -/
def recordSegmentValue (pool : ReportPool V) (handle : Nat) : Option (ReportSegment × ReportRecords) := do
  let first ← pool.record handle
  some (first.segment, ⟨handle, first.segmentTail, first.segmentCount⟩)

/-- `take_segment_values`. -/
def takeSegmentValues (pool : ReportPool V) (source : ReportRecords) :
  Option (ReportPool V × ReportRecords × ReportSegment × ReportRecords) := do
  let (segment, output) ← recordSegmentValue pool source.head
  let last ← pool.record output.tail
  let count ← checkedSub source.count output.count
  some (pool.store output.tail { last with next := 0 },
    ⟨last.next, if count = 0 then 0 else source.tail, count⟩, segment, output)

end Bray.Pool
