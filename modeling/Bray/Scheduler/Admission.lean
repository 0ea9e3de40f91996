/-
  File:      Bray/Scheduler/Admission.lean
  Subject:   ADMISSION (scheduler/admission.bray): the arenas grow, a free entry becomes a
             registration, its token is returned.

  `try_admit` runs under the lock and never allocates: storage comes from the caller's
  `Prepared`, and a `Growth` result asks for more. `admission` alternates `try_admit` with
  `prepare_growth`, which runs outside the lock; the two are separate steps of a run
  (System.lean).

  The two nested `while` loops of `try_admit` both go back to the test `state.free == 0`; they
  are one recursion here (`tryAdmitLoop`), cut off by fuel that never runs out on a well-formed
  state (Admit.lean).
-/
import Bray.Scheduler.Queue

namespace Bray.Scheduler

/-- `while queues.initialized < entry_capacity`: `count` fresh headers join the free list. -/
def fillQueues : Nat → State → RawBuffer Queue → Except Fault State
  | 0, state, queues => .ok { state with queues := some queues }
  | count + 1, state, queues => do
    let next := state.freeQueue
    let queues ← queues.initializeSpare (emptyQueue next)
    fillQueues count { state with freeQueue := queues.initialized } queues

/-- `while entries.initialized < entries.capacity`: `count` fresh entries join the free list. -/
def fillEntries : Nat → State → RawBuffer Entry → Except Fault State
  | 0, state, entries => .ok { state with entries := some entries }
  | count + 1, state, entries => do
    let next := state.free
    let entries ← entries.initializeSpare (emptyEntry next)
    fillEntries count { state with free := entries.initialized } entries

/-- The two initialization loops at the end of the body of `while state.free == 0`. -/
def fillArena (state : State) (entries : RawBuffer Entry) (queues : RawBuffer Queue) :
    Except Fault State := do
  let state ← fillQueues (entries.capacity - queues.initialized) state queues
  fillEntries (min entries.capacity 0xffffffff - entries.initialized) state entries

/-- The body of `while state.free == 0` behind the reservation of entries. A reservation that
    answers `Ok(true)` always leaves storage behind. -/
def refillQueues (state : State) (prepared : Prepared) (entries : RawBuffer Entry) :
    Except Fault (State × Prepared × Option (Except Growth Nat)) :=
  let (result, queues, spare) := RawBuffer.reserve state.queues prepared.queues
  let state := { state with queues := queues }
  let prepared := { prepared with queues := spare }
  match result, queues with
  | .error required, _ => .ok (state, prepared, some (.error (.queues required)))
  | .ok false, _ => .ok (state, prepared, some (.ok 0))
  | .ok true, none => .error .queuesAbsent
  | .ok true, some queues => do
    let state ← fillArena state entries queues
    pure (state, prepared, none)

/-- The body of `while state.free == 0`. The last component is the value `try_admit` returns
    when it leaves from here. -/
def refill (state : State) (prepared : Prepared) :
    Except Fault (State × Prepared × Option (Except Growth Nat)) :=
  if state.entries.elim 0 RawBuffer.capacity ≥ 0xffffffff then .ok (state, prepared, some (.ok 0))
  else
    let (result, entries, spare) := RawBuffer.reserve state.entries prepared.entries
    let state := { state with entries := entries }
    let prepared := { prepared with entries := spare }
    match result, entries with
    | .error required, _ => .ok (state, prepared, some (.error (.entries required)))
    | .ok false, _ => .ok (state, prepared, some (.ok 0))
    | .ok true, none => .error .capacityAbsent
    | .ok true, some entries => refillQueues state prepared entries

/-- The entry of a fresh registration. -/
def admitRow (task : Nat) (lane : Lane) (row : Entry) : Entry :=
  { row with generation := row.generation + 1, phase := 0, task := task, lane := lane, next := 0,
             previous := 0, pending := 0, cause := 0, wakes := 0, slot := false, queuedAt := 0 }

def tryAdmitLoop (task : Nat) (lane : Lane) :
    Nat → State → Prepared → Except Fault (State × Prepared × Except Growth Nat)
  | 0, _, _ => .error .loop
  | fuel + 1, state, prepared =>
    if state.free = 0 then do
      let (state, prepared, result) ← refill state prepared
      match result with
      | some result => pure (state, prepared, result)
      | none => tryAdmitLoop task lane fuel state prepared
    else do
      let index := state.free
      let row ← entry state index
      if row.generation = u32Max then
        tryAdmitLoop task lane fuel { state with free := row.next } prepared
      else do
        let state ← modifyEntry state index (admitRow task lane)
        pure ({ state with free := row.next }, prepared, .ok (token (row.generation + 1) index))

/-- `try_admit`: a token, zero when no further registration can be identified, or the storage
    the caller has to prepare first. -/
def tryAdmit (state : State) (prepared : Prepared) (task : Nat) (lane : Lane) :
    Except Fault (State × Prepared × Except Growth Nat) :=
  tryAdmitLoop task lane (state.entryCount + 3) state prepared

/-- `prepare_growth`; `granted` says whether the allocation succeeds. -/
def prepareGrowth (prepared : Prepared) (granted : Bool) : Growth → Prepared
  | .entries capacity =>
    { prepared with entries := if granted then some (.fresh capacity) else none }
  | .queues capacity =>
    { prepared with queues := if granted then some (.fresh capacity) else none }

end Bray.Scheduler
