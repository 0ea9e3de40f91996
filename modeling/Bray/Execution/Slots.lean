/-
  File:      Bray/Execution/Slots.lean
  Subject:   EXECUTION SLOTS (scheduler/execution.rs): a bounded number of workers run at a time,
    interactive work goes first, and ordinary work is not passed over for ever.

  Any number of parties acquire a slot (`acquire`, `try_acquire`), suspend and resume their lease and drop
  it, and the priorities they demand are promoted. What a party does under the lock of the slot state is
  one step; reading the demanded priority before the lock, marking the lease as held and clearing the mark
  are steps of their own. A party that waits may wake at any time.

  A counter that would fall below zero is a panic in the source and a fault here. A counter that would
  exceed its width is an error of the operation.
-/
import Bray.Lib.Census
import Bray.Lib.Check
import Bray.Lib.Run
import Mathlib

namespace Bray.Execution

open Bray.Lib

def maxInteractiveStreak : Nat := 8

def usizeMax : Nat := 2 ^ 64 - 1

inductive QueryPriority where
  | interactive
  | normal
  | background
  deriving DecidableEq

def QueryPriority.rank : QueryPriority → Nat
  | .interactive => 0
  | .normal => 1
  | .background => 2

/-- The promotion of a demand never lowers it. -/
def QueryPriority.promote (current requested : QueryPriority) : QueryPriority :=
  if requested.rank < current.rank then requested else current

inductive CapacityResource where
  | schedulerInteractiveStreak
  | schedulerActiveSlots
  | schedulerInteractiveWaiters
  | schedulerOrdinaryWaiters
  deriving DecidableEq

/-- The counters that have to be positive where they are decremented. -/
inductive SchedulerCounter where
  | interactiveWaiters
  | ordinaryWaiters
  | activeSlots

/-! ## 1. The counters -/

structure SlotState where
  active : Nat
  interactiveWaiters : Nat
  ordinaryWaiters : Nat
  interactiveStreak : Nat

def checkedAddOne (value : Nat) (resource : CapacityResource) : Except CapacityResource Nat :=
  if value + 1 ≤ usizeMax then .ok (value + 1) else .error resource

def grantedStreak (state : SlotState) (interactive : Bool) : Except CapacityResource Nat :=
  if interactive then checkedAddOne state.interactiveStreak .schedulerInteractiveStreak else .ok 0

def grantSlot (state : SlotState) (interactive : Bool) : Except CapacityResource SlotState := do
  let interactiveStreak ← grantedStreak state interactive
  let active ← checkedAddOne state.active .schedulerActiveSlots
  .ok { state with interactiveStreak := interactiveStreak, active := active }

def registerWaiter (state : SlotState) (interactive : Bool) : Except CapacityResource SlotState :=
  if interactive then do
    let waiters ← checkedAddOne state.interactiveWaiters .schedulerInteractiveWaiters
    .ok { state with interactiveWaiters := waiters }
  else do
    let waiters ← checkedAddOne state.ordinaryWaiters .schedulerOrdinaryWaiters
    .ok { state with ordinaryWaiters := waiters }

def unregisterWaiter (state : SlotState) (interactive : Bool) : Except SchedulerCounter SlotState :=
  if interactive then
    if state.interactiveWaiters = 0 then .error .interactiveWaiters
    else .ok { state with interactiveWaiters := state.interactiveWaiters - 1 }
  else if state.ordinaryWaiters = 0 then .error .ordinaryWaiters
  else .ok { state with ordinaryWaiters := state.ordinaryWaiters - 1 }

/-- The release of capacity, by a suspension or by the drop of a slot. -/
def releaseSlot (state : SlotState) : Except SchedulerCounter SlotState :=
  if state.active = 0 then .error .activeSlots else .ok { state with active := state.active - 1 }

def canAcquire (limit : Nat) (state : SlotState) (interactive : Bool) : Bool :=
  if state.active ≥ limit then false
  else if interactive then state.interactiveStreak < maxInteractiveStreak || state.ordinaryWaiters == 0
  else state.interactiveWaiters == 0 || state.interactiveStreak ≥ maxInteractiveStreak

/-! ## 2. The loop of `acquire_capacity` -/

/-- How a turn of the loop ends: the party waits again, has its capacity, or leaves with an error. -/
inductive Turn where
  | waits
  | acquired
  | failed (resource : CapacityResource)
  deriving DecidableEq

/-- A waiter whose priority was promoted changes its class. -/
def reclassify (state : SlotState) (interactive promoted : Bool) :
  Except SchedulerCounter (SlotState × Option CapacityResource) :=
  if promoted = interactive then .ok (state, none)
  else do
    let state ← unregisterWaiter state interactive
    match registerWaiter state promoted with
    | .ok state => .ok (state, none)
    | .error resource => .ok (state, some resource)

/-- The check that ends the loop, and what follows it. -/
def settle (limit : Nat) (state : SlotState) (interactive : Bool) :
  Except SchedulerCounter (SlotState × Turn) :=
  if canAcquire limit state interactive then do
    let state ← unregisterWaiter state interactive
    match grantSlot state interactive with
    | .ok state => .ok (state, .acquired)
    | .error resource => .ok (state, .failed resource)
  else .ok (state, .waits)

/-- **One turn of the loop** of a party registered as `interactive` that finds its priority `promoted`. -/
def turn (limit : Nat) (state : SlotState) (interactive promoted : Bool) :
  Except SchedulerCounter (SlotState × Turn) := do
  let (state, failure) ← reclassify state interactive promoted
  match failure with
  | some resource => .ok (state, .failed resource)
  | none => settle limit state promoted

/-! ## 3. Parties -/

/-- Where a party is. A demand names the priority that the party reads. -/
inductive Place (δ : Type) where
  | idle
  /-- In `acquire_capacity` before the lock, with the class it read. -/
  | arriving (demand : δ) (resuming interactive : Bool)
  /-- Registered as a waiter. -/
  | blocked (demand : δ) (resuming interactive : Bool)
  /-- In `try_acquire` before the lock. -/
  | attempting (demand : δ) (interactive : Bool)
  /-- Granted its capacity; the lease is not marked as held yet. -/
  | granted (demand : δ)
  | holding (demand : δ)
  | suspended (demand : δ)
  /-- Dropping its slot: the mark is cleared, the capacity not returned yet. -/
  | releasing (demand : δ)

/-- The party has capacity: its lease is held from the grant to the return. -/
def Place.held {δ : Type} : Place δ → Bool
  | .granted _ | .holding _ | .releasing _ => true
  | _ => false

/-- The lease of the party is marked as held. -/
def Place.marked {δ : Type} : Place δ → Bool
  | .holding _ => true
  | _ => false

/-- The party is registered as a waiter of a class. -/
def Place.blockedAs {δ : Type} (interactive : Bool) : Place δ → Bool
  | .blocked _ _ registered => registered == interactive
  | _ => false

/-- Where a party is that left `acquire_capacity` with an error. -/
def Place.abandoned {δ : Type} (demand : δ) (resuming : Bool) : Place δ :=
  if resuming then .suspended demand else .idle

structure System (ι δ : Type) where
  slots : SlotState
  demands : δ → QueryPriority
  place : ι → Place δ

inductive Step (ι δ : Type) where
  /-- `acquire`, to the lock. -/
  | acquire (party : ι) (demand : δ)
  /-- `resume`, to the lock. -/
  | resume (party : ι)
  /-- The lock of `acquire_capacity`: the registration and the first turn of the loop. -/
  | enter (party : ι)
  /-- A further turn of the loop. -/
  | wake (party : ι)
  /-- `try_acquire`, to the lock. -/
  | tryAcquire (party : ι) (demand : δ)
  /-- The lock of `try_acquire`. -/
  | attempt (party : ι)
  /-- The lease is marked as held. -/
  | mark (party : ι)
  | suspend (party : ι)
  /-- The drop of a slot, to the lock. -/
  | drop (party : ι)
  /-- The lock of the drop. -/
  | release (party : ι)
  | promote (demand : δ) (priority : QueryPriority)

inductive Out where
  | silent
  | granted (interactive : Bool)
  | refused
  | failed (resource : CapacityResource)
  deriving DecidableEq

namespace System

variable {ι δ : Type} [DecidableEq ι] [DecidableEq δ]

/-- The priority demanded at the moment is interactive. -/
def interactive (s : System ι δ) (demand : δ) : Bool := s.demands demand = .interactive

def goto (s : System ι δ) (slots : SlotState) (party : ι) (place : Place δ) : System ι δ :=
  { s with slots := slots, place := Function.update s.place party place }

def promote (s : System ι δ) (demand : δ) (priority : QueryPriority) : System ι δ :=
  let promoted := (s.demands demand).promote priority
  { s with demands := Function.update s.demands demand promoted }

/-- A turn of the loop, taken by a party. -/
def takeTurn (limit : Nat) (s : System ι δ) (slots : SlotState) (party : ι) (demand : δ)
  (resuming interactive : Bool) : Except SchedulerCounter (System ι δ × Out) := do
  let promoted := s.interactive demand
  let (slots, turn) ← turn limit slots interactive promoted
  match turn with
  | .waits => .ok (s.goto slots party (.blocked demand resuming promoted), .silent)
  | .acquired => .ok (s.goto slots party (.granted demand), .granted promoted)
  | .failed resource => .ok (s.goto slots party (.abandoned demand resuming), .failed resource)

/-- **One step.** A step that does not belong to the place of its party does nothing. -/
def step (limit : Nat) (s : System ι δ) : Step ι δ → Except SchedulerCounter (System ι δ × Out)
  | .acquire party demand => match s.place party with
    | .idle => .ok (s.goto s.slots party (.arriving demand false (s.interactive demand)), .silent)
    | _ => .ok (s, .silent)
  | .resume party => match s.place party with
    | .suspended demand =>
      .ok (s.goto s.slots party (.arriving demand true (s.interactive demand)), .silent)
    | _ => .ok (s, .silent)
  | .enter party => match s.place party with
    | .arriving demand resuming interactive =>
      match registerWaiter s.slots interactive with
      | .error resource =>
        .ok (s.goto s.slots party (.abandoned demand resuming), .failed resource)
      | .ok slots => s.takeTurn limit slots party demand resuming interactive
    | _ => .ok (s, .silent)
  | .wake party => match s.place party with
    | .blocked demand resuming interactive =>
      s.takeTurn limit s.slots party demand resuming interactive
    | _ => .ok (s, .silent)
  | .tryAcquire party demand => match s.place party with
    | .idle => .ok (s.goto s.slots party (.attempting demand (s.interactive demand)), .silent)
    | _ => .ok (s, .silent)
  | .attempt party => match s.place party with
    | .attempting demand interactive =>
      if canAcquire limit s.slots interactive then
        match grantSlot s.slots interactive with
        | .ok slots => .ok (s.goto slots party (.granted demand), .granted interactive)
        | .error resource => .ok (s.goto s.slots party .idle, .failed resource)
      else .ok (s.goto s.slots party .idle, .refused)
    | _ => .ok (s, .silent)
  | .mark party => match s.place party with
    | .granted demand => .ok (s.goto s.slots party (.holding demand), .silent)
    | _ => .ok (s, .silent)
  | .suspend party => match s.place party with
    | .holding demand => do
      let slots ← releaseSlot s.slots
      .ok (s.goto slots party (.suspended demand), .silent)
    | _ => .ok (s, .silent)
  | .drop party => match s.place party with
    | .holding demand => .ok (s.goto s.slots party (.releasing demand), .silent)
    | .suspended _ => .ok (s.goto s.slots party .idle, .silent)
    | _ => .ok (s, .silent)
  | .release party => match s.place party with
    | .releasing _ => do
      let slots ← releaseSlot s.slots
      .ok (s.goto slots party .idle, .silent)
    | _ => .ok (s, .silent)
  | .promote demand priority => .ok (s.promote demand priority, .silent)

def initial (demands : δ → QueryPriority) : System ι δ := ⟨⟨0, 0, 0, 0⟩, demands, fun _ => .idle⟩

end System

end Bray.Execution
