/-
  File:      Bray/Pool/Data.lean
  Subject:   THE REPORT POOL (record_pool.bray, records.bray, storage/data.bray, pool/growth.bray) and
    how its buffers grow (memory/heap.bray).

  Handles, ordinals and counters are natural numbers. What the source checks on its machine words
  is checked here: a difference below zero, an index out of range, a full buffer and a failed check
  all stop the process, and are `none`. No sum can leave its word while the pool is well formed: the
  sums are bounded by `total`, and `total` by what the address space holds.

  Growth under the lock only installs buffers that were prepared before the lock was taken. A
  prepared buffer is an input here, so that what is proved holds whether a request for memory
  succeeded, failed, or came too late.
-/
import Bray.Lib.Check
import Bray.Lib.Slab
import Bray.Lib.Strands
import Mathlib

namespace Bray.Pool

open Bray.Lib

/-- What the target and the linked provider fix. -/
structure Target where
  width : Nat
  recordSize : Nat
  identity : Nat
  width_le : width ≤ 64
  recordSize_pos : 0 < recordSize

namespace Target

def usizeMax (target : Target) : Nat := 2 ^ target.width - 1

/-- The most records the address space has room for. -/
def recordLimit (target : Target) : Nat := target.usizeMax / target.recordSize

end Target

def u64Max : Nat := 2 ^ 64 - 1

/-- A difference of machine words. -/
def checkedSub (a b : Nat) : Option Nat := if b ≤ a then some (a - b) else none

theorem checkedSub_eq {a b : Nat} (h : b ≤ a) : checkedSub a b = some (a - b) := if_pos h

theorem checkedSub_some {a b c : Nat} (h : checkedSub a b = some c) : b ≤ a ∧ c = a - b := by
  unfold checkedSub at h
  split at h
  · cases h
    exact ⟨‹_›, rfl⟩
  · cases h

/-! ## 1. Buffers -/

/-- `std.memory.RawBuffer`: an allocation and its initialized prefix. -/
structure RawBuffer (α : Type) where
  pointer : Nat
  capacity : Nat
  items : List α
  fits : items.length ≤ capacity
  deriving DecidableEq

namespace RawBuffer

variable {α : Type}

def initialized (buffer : RawBuffer α) : Nat := buffer.items.length

def initializeSpare (buffer : RawBuffer α) (value : α) : Option (RawBuffer α) :=
  if h : buffer.items.length < buffer.capacity then
    some { buffer with
      items := buffer.items ++ [value]
      fits := by rw [List.length_append, List.length_singleton]; exact h }
  else none

/-- Values of the initialized prefix are written. -/
def overwrite (buffer : RawBuffer α) (f : List α → List α) (h : ∀ xs, (f xs).length = xs.length) :
  RawBuffer α :=
  { buffer with
    items := f buffer.items
    fits := by rw [h]; exact buffer.fits }

def write (buffer : RawBuffer α) (index : Nat) (value : α) : RawBuffer α :=
  buffer.overwrite (·.set index value) fun _ => List.length_set

/-- `raw_buffer_relocate` and the exchange of the two buffers: the values move to `replacement`,
  and the empty backing they leave is handed out. -/
def relocate (buffer replacement : RawBuffer α) (h : buffer.items.length ≤ replacement.capacity) :
  RawBuffer α × RawBuffer α :=
  ({ replacement with items := buffer.items, fits := h }, { buffer with items := [], fits := Nat.zero_le _ })

theorem initializeSpare_eq {buffer : RawBuffer α} (h : buffer.items.length < buffer.capacity) (value : α) :
    ∃ buffer', buffer.initializeSpare value = some buffer' ∧ buffer'.items = buffer.items ++ [value] ∧
      buffer'.capacity = buffer.capacity ∧ buffer'.pointer = buffer.pointer := by
  rw [initializeSpare, dif_pos h]
  exact ⟨_, rfl, rfl, rfl, rfl⟩

end RawBuffer

/-! ## 2. Growth -/

/-- The answer of a reservation: it is ready or refused, or it asks for a buffer. -/
abbrev Reply (R α : Type) := Except R α

variable {α : Type}

/-- The capacity that a full buffer asks for. -/
def doubled (capacity : Nat) : Nat := if capacity = 0 then 1 else capacity * 2

theorem lt_doubled (capacity : Nat) : capacity < doubled capacity := by
  unfold doubled
  split <;> omega

/-- `heap.grow`. -/
def grow (target : Target) (buffer : RawBuffer α) (prepared : Option (RawBuffer α)) :
  Reply Nat Bool × RawBuffer α × Option (RawBuffer α) :=
  if buffer.initialized < buffer.capacity then (.ok true, buffer, prepared)
  else if target.usizeMax - buffer.capacity < buffer.capacity then (.ok false, buffer, prepared)
  else
    match prepared with
    | some replacement =>
      if h : replacement.capacity < doubled buffer.capacity ∨ replacement.capacity < buffer.initialized ∨
        replacement.initialized ≠ 0 then
        (.error (doubled buffer.capacity), buffer, prepared)
      else
        have hfits : buffer.items.length ≤ replacement.capacity := by
          rw [not_or, not_or] at h
          exact Nat.not_lt.mp h.2.1
        let (grown, backing) := buffer.relocate replacement hfits
        (.ok true, grown, some backing)
    | none => (.error (doubled buffer.capacity), buffer, prepared)

/-- `heap.reserve`. -/
def reserveBuffer (target : Target) (buffer prepared : Option (RawBuffer α)) :
  Reply Nat Bool × Option (RawBuffer α) × Option (RawBuffer α) :=
  match buffer with
  | some storage =>
    let (reply, storage, prepared) := grow target storage prepared
    (reply, some storage, prepared)
  | none =>
    match prepared with
    | some replacement =>
      if replacement.capacity < 1 ∨ replacement.initialized ≠ 0 then (.error 1, none, prepared)
      else (.ok true, prepared, none)
    | none => (.error 1, none, none)

/-- The values a buffer holds, if it was allocated. -/
def held (buffer : Option (RawBuffer α)) : List α := (buffer.map RawBuffer.items).getD []

@[simp] theorem held_none : held (none : Option (RawBuffer α)) = [] := rfl

@[simp] theorem held_some (buffer : RawBuffer α) : held (some buffer) = buffer.items := rfl

/-- A reservation moves no value, and where it is ready there is room for one more. -/
theorem reserveBuffer_spec (target : Target) (buffer prepared : Option (RawBuffer α)) :
    held (reserveBuffer target buffer prepared).2.1 = held buffer ∧
      ((reserveBuffer target buffer prepared).1 = .ok true →
        ∃ storage, (reserveBuffer target buffer prepared).2.1 = some storage ∧
          storage.items.length < storage.capacity) := by
  cases buffer with
  | none =>
    cases prepared with
    | none => exact ⟨rfl, fun h => by cases h⟩
    | some replacement =>
      simp only [reserveBuffer]
      split
      · exact ⟨rfl, fun h => by cases h⟩
      · rename_i hr
        rw [not_or, not_not] at hr
        have hnil : replacement.items = [] := List.eq_nil_of_length_eq_zero hr.2
        refine ⟨by rw [held_some, held_none, hnil], fun _ => ⟨replacement, rfl, ?_⟩⟩
        rw [hnil]
        exact Nat.not_lt.mp hr.1
  | some storage =>
    simp only [reserveBuffer, grow]
    split
    · rename_i hroom
      exact ⟨rfl, fun _ => ⟨storage, rfl, hroom⟩⟩
    · split
      · exact ⟨rfl, fun h => by cases h⟩
      · cases prepared with
        | none => exact ⟨rfl, fun h => by cases h⟩
        | some replacement =>
          simp only
          split
          · exact ⟨rfl, fun h => by cases h⟩
          · rename_i hr
            rw [not_or, not_or] at hr
            refine ⟨rfl, fun _ => ⟨_, rfl, ?_⟩⟩
            calc storage.items.length
              _ ≤ storage.capacity := storage.fits
              _ < doubled storage.capacity := lt_doubled _
              _ ≤ replacement.capacity := Nat.not_lt.mp hr.1

/-! ## 3. Records -/

structure ReportSegment where
  ordinal : UInt64
  task : UInt64
  frame : Vector UInt8 32
  state : UInt32

/-- What a record holds before it is marked. -/
def ReportSegment.blank : ReportSegment := ⟨0, 0, .replicate 32 0, 0⟩

/-- A chain of records, as it is handed in and out. -/
structure ReportRecords where
  head : Nat
  tail : Nat
  count : Nat

def emptyRecords : ReportRecords := ⟨0, 0, 0⟩

/-- A record. `V` is the report it keeps; the default stands for the empty panic. -/
structure ReportRecord (V : Type) where
  value : V
  next : Nat
  segment : ReportSegment
  segmentTail : Nat
  segmentCount : Nat

abbrev ReportSlab (V : Type) := Slab (ReportRecord V) Unit

/-! ## 4. Storage -/

structure Descriptor where
  identity : Vector UInt8 32
  bytes : Nat
  align : Nat
  deriving DecidableEq

structure Bundle where
  records : Nat
  descriptors : List Descriptor

structure Lease where
  domain : Nat
  shape : Nat
  slot : Nat
  epoch : Nat
  address : Nat
  deriving DecidableEq

def emptyLease : Lease := ⟨0, 0, 0, 0, 0⟩

inductive State
  | free (next : Nat)
  | reserved
  | active
  | inactive (descriptor : Nat)
  | dispatched
  | retained (descriptor : Nat)
  deriving DecidableEq

structure Slot where
  epoch : Nat
  state : State
  address : Nat
  deriving DecidableEq

/-- The slots of a shape and, beside them, the bytes they point into. -/
abbrev StorageSlab := Slab Slot (RawBuffer UInt8)

structure Shape where
  descriptor : Descriptor
  slabs : Option (RawBuffer StorageSlab)
  free : Nat
  available : Nat
  total : Nat
  credits : Nat

def sameShape (left right : Descriptor) : Bool :=
  left.bytes == right.bytes && left.align == right.align && left.identity == right.identity

def validLayout (descriptor : Descriptor) : Bool :=
  descriptor.align != 0 && descriptor.align &&& (descriptor.align - 1) == 0

theorem sameShape_iff {left right : Descriptor} : sameShape left right = true ↔ left = right := by
  cases left
  cases right
  simp only [sameShape, Bool.and_eq_true, beq_iff_eq, Descriptor.mk.injEq]
  tauto

/-! ## 5. The pool -/

structure ReportPool (V : Type) where
  slabs : Option (RawBuffer (ReportSlab V))
  free : Nat
  available : Nat
  total : Nat
  credits : Nat
  storage : Option (RawBuffer Shape)
  nextEpoch : Nat
  remainingEpochs : Nat

/-- The pool of the domain, as it is linked. -/
def ReportPool.start (V : Type) : ReportPool V :=
  ⟨none, 0, 0, 0, 0, none, 1, u64Max - 1⟩

inductive Request
  | records (count : Nat)
  | recordSlabs (count : Nat)
  | shapes (count : Nat)
  | storageSlabs (count : Nat)
  | storage (bytes slots : Nat)
  deriving DecidableEq

/-- An empty buffer. -/
def RawBuffer.vacant (pointer capacity : Nat) : RawBuffer α := ⟨pointer, capacity, [], Nat.zero_le _⟩

/-- The buffers prepared outside the lock. -/
structure Prepared (V : Type) where
  records : Option (RawBuffer (ReportRecord V))
  recordSlabs : Option (RawBuffer (ReportSlab V))
  shapes : Option (RawBuffer Shape)
  storageSlabs : Option (RawBuffer StorageSlab)
  slots : Option (RawBuffer Slot)
  bytes : Option (RawBuffer UInt8)

end Bray.Pool
