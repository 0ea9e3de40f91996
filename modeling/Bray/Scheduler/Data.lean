/-
  File:      Bray/Scheduler/Data.lean
  Subject:   THE DATA OF THE TASK SCHEDULER (runtime/bootstrap/src/scheduler/data.bray) and the
    part of the heap it reserves its arenas from (memory/heap.bray).

  One scheduler domain owns two arenas: the entries (one per registration) and the lane headers.
  Both are numbered from one; zero is the absent link. The fields carry the source's names.

  * Machine integers are naturals. Where the code depends on a width the bound is explicit:
    `u32Max` for generations, `u64Max` for wake counts, `usizeMax` for capacities, and the
    index/generation halves of a registration token (`indexOf`, Admission.lean).
  * A reference into an arena is a read or a write at its index; an index outside the
    initialized prefix is a fault, as is every `core.target.abort` of the source (`Fault`).
  * A buffer cannot hold more rows than its capacity (`RawBuffer.fits`), so a model in which a
    row lies outside its storage cannot be built.
-/
import Mathlib

namespace Bray.Scheduler

def u32Max : Nat := 0xffffffff

def u64Max : Nat := 0xffffffffffffffff

def usizeMax : Nat := 0xffffffffffffffff

/-- Why an operation stops the process: an `abort` of the source (named by its place), an index
  outside an arena, a decrement below zero, a push into a full buffer, or a loop that the
  model cut off. -/
inductive Fault where
  | entriesAbsent
  | queuesAbsent
  | capacityAbsent
  | headersExhausted
  | releaseUnclaimed
  | slotReleaseUnclaimed
  | slotAcquisitionUnclaimed
  | parkingUnbalanced
  | bounds
  | underflow
  | bufferFull
  | loop
  deriving DecidableEq

structure Lane where
  placement : Nat
  workload : Nat
  thread : Nat
  deriving DecidableEq

structure Observation where
  task : Nat
  registration : Nat
  lane : Lane
  phase : Nat
  cause : Nat
  wakes : Nat
  queuedAt : Nat

/-- One registration cell. Phases: 0 idle, 1 ready (queued), 2 running, 3 retired. -/
structure Entry where
  generation : Nat
  phase : Nat
  task : Nat
  lane : Lane
  queue : Nat
  previous : Nat
  next : Nat
  cause : Nat
  pending : Nat
  wakes : Nat
  queuedAt : Nat
  slot : Bool
  deriving DecidableEq

/-- One lane header: the ready entries of a lane between `head` and `tail`, and the header's own
  place in the list of active lanes. -/
structure Queue where
  lane : Lane
  head : Nat
  tail : Nat
  previous : Nat
  next : Nat
  deriving DecidableEq

/-- `std.memory.RawBuffer`: storage for `capacity` rows with an initialized prefix. -/
structure RawBuffer (α : Type) where
  capacity : Nat
  rows : List α
  fits : rows.length ≤ capacity

namespace RawBuffer

variable {α : Type}

def initialized (buffer : RawBuffer α) : Nat := buffer.rows.length

/-- `try_buffer`: fresh storage, nothing initialized. -/
def fresh (capacity : Nat) : RawBuffer α := ⟨capacity, [], Nat.zero_le _⟩

def setRow (buffer : RawBuffer α) (index : Nat) (row : α) : RawBuffer α :=
  ⟨buffer.capacity, buffer.rows.set index row, by
    rw [List.length_set]; exact buffer.fits⟩

/-- `initialize_spare`: panics when no spare slot is left. -/
def initializeSpare (buffer : RawBuffer α) (value : α) : Except Fault (RawBuffer α) :=
  if h : buffer.rows.length < buffer.capacity then
    .ok ⟨buffer.capacity, buffer.rows ++ [value], by
      rw [List.length_append, List.length_singleton]; exact h⟩
  else .error .bufferFull

/-- `grow`: the spare capacity is used first; otherwise the prepared storage must have twice the
  capacity and nothing initialized, and the initialized rows move into it. The replaced storage
  stays, empty, in `prepared`. The result is `Result<bool, usize>`. -/
def grow (buffer : RawBuffer α) (prepared : Option (RawBuffer α)) :
  Except Nat Bool × RawBuffer α × Option (RawBuffer α) :=
  if buffer.initialized < buffer.capacity then (.ok true, buffer, prepared)
  else if buffer.capacity > usizeMax - buffer.capacity then (.ok false, buffer, prepared)
  else
    let required := if buffer.capacity = 0 then 1 else buffer.capacity * 2
    match prepared with
    | some replacement =>
      if replacement.capacity < required ∨ replacement.initialized ≠ 0 then
        (.error required, buffer, prepared)
      else if h : buffer.rows.length ≤ replacement.capacity then
        (.ok true, ⟨replacement.capacity, buffer.rows, h⟩, some (fresh buffer.capacity))
      else (.error required, buffer, prepared)
    | none => (.error required, buffer, none)

/-- `reserve`: install prepared capacity without allocating. -/
def reserve (buffer prepared : Option (RawBuffer α)) :
  Except Nat Bool × Option (RawBuffer α) × Option (RawBuffer α) :=
  match buffer with
  | some storage =>
    let (result, storage, prepared) := storage.grow prepared
    (result, some storage, prepared)
  | none =>
    match prepared with
    | some replacement =>
      if replacement.capacity < 1 ∨ replacement.initialized ≠ 0 then
        (.error 1, none, some replacement)
      else (.ok true, some replacement, none)
    | none => (.error 1, none, none)

end RawBuffer

structure State where
  entries : Option (RawBuffer Entry)
  queues : Option (RawBuffer Queue)
  freeQueue : Nat
  free : Nat
  head : Nat
  tail : Nat
  running : Nat
  waiters : Fin 2 → Nat

/-- One scheduler domain: its configuration, the state its lock protects and the two signal
  words waiters park on. -/
structure Domain where
  capabilities : Nat
  main : Nat
  limit : Nat
  state : State
  signals : Fin 2 → Nat

/-- Storage an admission has allocated outside the lock. -/
structure Prepared where
  entries : Option (RawBuffer Entry)
  queues : Option (RawBuffer Queue)

inductive Growth where
  | entries (capacity : Nat)
  | queues (capacity : Nat)

def emptyLane : Lane := ⟨0, 0, 0⟩

def emptyEntry (next : Nat) : Entry where
  generation := 0
  phase := 3
  task := 0
  lane := emptyLane
  queue := 0
  previous := 0
  next := next
  cause := 0
  pending := 0
  wakes := 0
  queuedAt := 0
  slot := false

def emptyQueue (next : Nat) : Queue where
  lane := emptyLane
  head := 0
  tail := 0
  previous := 0
  next := next

/-- `initialize` (storage.bray): a domain with no storage and nothing registered. -/
def Domain.initial (capabilities main limit : Nat) : Domain where
  capabilities := capabilities
  main := main
  limit := limit
  state := ⟨none, none, 0, 0, 0, 0, 0, fun _ => 0⟩
  signals := fun _ => 0

/-! ## The arenas, row by row -/

namespace State

def entryRows (state : State) : List Entry := state.entries.elim [] RawBuffer.rows

def queueRows (state : State) : List Queue := state.queues.elim [] RawBuffer.rows

/-- The number of initialized entries; they are numbered `1 .. entryCount`. -/
def entryCount (state : State) : Nat := state.entryRows.length

def queueCount (state : State) : Nat := state.queueRows.length

/-- The entry at an index, the empty entry outside the arena. -/
def row (state : State) (index : Nat) : Entry :=
  if index = 0 then emptyEntry 0 else state.entryRows.getD (index - 1) (emptyEntry 0)

/-- The header at an index, the empty header outside the arena. -/
def header (state : State) (index : Nat) : Queue :=
  if index = 0 then emptyQueue 0 else state.queueRows.getD (index - 1) (emptyQueue 0)

def setRow (state : State) (index : Nat) (row : Entry) : State :=
  { state with entries := state.entries.map (·.setRow (index - 1) row) }

def setHeader (state : State) (index : Nat) (header : Queue) : State :=
  { state with queues := state.queues.map (·.setRow (index - 1) header) }

def HasRow (state : State) (index : Nat) : Prop := index ≠ 0 ∧ index ≤ state.entryCount

def HasHeader (state : State) (index : Nat) : Prop := index ≠ 0 ∧ index ≤ state.queueCount

instance (state : State) (index : Nat) : Decidable (state.HasRow index) :=
  inferInstanceAs (Decidable (_ ∧ _))

instance (state : State) (index : Nat) : Decidable (state.HasHeader index) :=
  inferInstanceAs (Decidable (_ ∧ _))

variable {state : State} {i j : Nat} {e : Entry} {q : Queue}

@[simp] theorem entryRows_setRow : (state.setRow i e).entryRows = state.entryRows.set (i - 1) e := by
  cases h : state.entries <;> simp [setRow, entryRows, h, RawBuffer.setRow]

@[simp] theorem queueRows_setHeader : (state.setHeader i q).queueRows = state.queueRows.set (i - 1) q := by
  cases h : state.queues <;> simp [setHeader, queueRows, h, RawBuffer.setRow]

@[simp] theorem entryCount_setRow : (state.setRow i e).entryCount = state.entryCount := by
  simp [entryCount]

@[simp] theorem queueCount_setHeader : (state.setHeader i q).queueCount = state.queueCount := by
  simp [queueCount]

@[simp] theorem queueCount_setRow : (state.setRow i e).queueCount = state.queueCount := rfl

theorem row_setRow (hi : state.HasRow i) : (state.setRow i e).row j = if j = i then e else state.row j := by
  obtain ⟨h0, hc⟩ := hi
  have hc : i - 1 < state.entryRows.length := by unfold entryCount at hc; omega
  unfold row
  by_cases hj : j = 0
  · simp [hj, Ne.symm h0]
  · by_cases hji : j = i
    · subst hji
      simp [hj, List.getD_eq_getElem?_getD, hc]
    · have hne : ¬ (i - 1 = j - 1) := by omega
      simp [hj, hji, List.getD_eq_getElem?_getD, hne]

theorem header_setHeader (hi : state.HasHeader i) :
    (state.setHeader i q).header j = if j = i then q else state.header j := by
  obtain ⟨h0, hc⟩ := hi
  have hc : i - 1 < state.queueRows.length := by unfold queueCount at hc; omega
  unfold header
  by_cases hj : j = 0
  · simp [hj, Ne.symm h0]
  · by_cases hji : j = i
    · subst hji
      simp [hj, List.getD_eq_getElem?_getD, hc]
    · have hne : ¬ (i - 1 = j - 1) := by omega
      simp [hj, hji, List.getD_eq_getElem?_getD, hne]

@[simp] theorem row_setRow_self (hi : state.HasRow i) : (state.setRow i e).row i = e := by
  rw [row_setRow hi, if_pos rfl]

@[simp] theorem header_setHeader_self (hi : state.HasHeader i) : (state.setHeader i q).header i = q := by
  rw [header_setHeader hi, if_pos rfl]

@[simp] theorem hasRow_setRow : (state.setRow i e).HasRow j ↔ state.HasRow j := by
  simp [HasRow]

end State

end Bray.Scheduler
