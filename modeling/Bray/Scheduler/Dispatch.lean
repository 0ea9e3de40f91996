/-
  File:      Bray/Scheduler/Dispatch.lean
  Subject:   DISPATCH (scheduler/dispatch.bray) and slots (scheduler/quota.bray): a consumer
    acquires the next ready entry, returns it, and may lend its slot in between.
-/
import Bray.Scheduler.Queue

namespace Bray.Scheduler

def observe (index : Nat) (row : Entry) : Observation where
  task := row.task
  registration := token row.generation index
  lane := row.lane
  phase := row.phase
  cause := if row.phase = 2 then row.pending else row.cause
  wakes := row.wakes
  queuedAt := row.queuedAt

def observation (state : State) (index : Nat) : Except Fault Observation := do
  let row ← entry state index
  pure (observe index row)

/-- The lane test of `acquisition`: the consumer's mask has the lane's bit, and a lane bound to
  a thread is bound to the consumer's. Placements and workloads are below four in every lane
  the native binding builds, so the bit is one of the lower sixteen. -/
def accepts (thread lanes : Nat) (lane : Lane) : Bool :=
  lanes.testBit (lane.placement * 4 + lane.workload) &&
    (lane.placement == 0 || lane.thread == thread)

/-- `if queue(..).head != 0 && state.tail != queue_index`: a header that keeps entries moves
  behind the other active lanes. -/
def rotateHeader (state : State) (queueIndex : Nat) : Except Fault State := do
  let current ← queue state queueIndex
  if current.head ≠ 0 ∧ state.tail ≠ queueIndex then do
    let state ← unlinkQueue state queueIndex
    appendQueue state queueIndex
  else pure state

/-- The part of `acquisition` behind the lane test: the first entry of the header is dispatched. -/
def dispatch (state : State) (queueIndex : Nat) : Except Fault (State × Observation) := do
  let current ← queue state queueIndex
  let index := current.head
  let result ← observation state index
  let state ← unlink state index
  let state ← rotateHeader state queueIndex
  let state ← modifyEntry state index fun row =>
    { row with phase := 2, pending := 0, slot := true }
  pure ({ state with running := state.running + 1 }, result)

/-- The `loop` of `acquisition` over the active lane headers. -/
def acquireFrom (thread lanes : Nat) (state : State) :
  Nat → Nat → Except Fault (State × Option Observation)
  | _, 0 => .ok (state, none)
  | 0, _ + 1 => .error .loop
  | fuel + 1, index + 1 => do
    let current ← queue state (index + 1)
    if accepts thread lanes current.lane then do
      let (state, result) ← dispatch state (index + 1)
      pure (state, some result)
    else acquireFrom thread lanes state fuel current.next

/-- `acquisition`: the dispatched entry, or nothing when no slot or no compatible lane is
  available. -/
def acquisition (value : Domain) (thread lanes : Nat) :
  Except Fault (Domain × Option Observation) :=
  if value.state.running = value.limit then .ok (value, none)
  else do
    let (state, result) ←
      acquireFrom thread lanes value.state value.state.queueCount value.state.head
    pure ({ value with state := state }, result)

/-- The entry a release leaves before it is queued again. -/
def releaseRow (lane : Lane) (row : Entry) : Entry :=
  { row with phase := 0, slot := false, pending := 0, cause := 0, lane := lane }

/-- `release`: 2 for a stale registration, 0 otherwise. A recorded wake, or else the caller's
  cancellation, queues the entry again in its new lane. -/
def release (value : Domain) (registration : Nat) (lane : Lane) (cancellation now : Nat) :
  Except Fault (Domain × Nat) := do
  let state := value.state
  let index ← indexOf state registration
  if index = 0 then pure (value, 2)
  else do
    let row ← entry state index
    if row.phase ≠ 2 ∨ row.slot = false then .error .releaseUnclaimed
    else do
      let pending := if row.pending ≠ 0 then row.pending else cancellation
      let state ← modifyEntry state index (releaseRow lane)
      let state ← decrement state
      let state ← (if pending ≠ 0 then enqueue state index pending now else .ok state)
      pure ((prepareSignal { value with state := state }).1, 0)

/-- `snapshot`: the observation of a live registration. -/
def snapshot (value : Domain) (registration : Nat) : Except Fault (Option Observation) := do
  let index ← indexOf value.state registration
  if index = 0 then pure none
  else do
    let result ← observation value.state index
    pure (some result)

/-- `slot_release`: 2 for a stale registration, 0 without a slot to lend, 1 otherwise. -/
def slotRelease (value : Domain) (registration : Nat) : Except Fault (Domain × Nat) := do
  let state := value.state
  let index ← indexOf state registration
  if index = 0 then pure (value, 2)
  else do
    let row ← entry state index
    if row.slot = false then pure (value, 0)
    else if row.phase ≠ 2 then .error .slotReleaseUnclaimed
    else do
      let state ← modifyEntry state index fun row => { row with slot := false }
      let state ← decrement state
      pure ((prepareSignal { value with state := state }).1, 1)

/-- `slot_acquisition`: 2 for a stale registration, 0 when every slot is taken, 1 otherwise. -/
def slotAcquisition (value : Domain) (registration : Nat) : Except Fault (Domain × Nat) := do
  let state := value.state
  let index ← indexOf state registration
  if index = 0 then pure (value, 2)
  else if state.running = value.limit then pure (value, 0)
  else do
    let row ← entry state index
    if row.phase ≠ 2 ∨ row.slot = true then .error .slotAcquisitionUnclaimed
    else do
      let state ← modifyEntry state index fun row => { row with slot := true }
      pure ({ value with state := { state with running := state.running + 1 } }, 1)

end Bray.Scheduler
