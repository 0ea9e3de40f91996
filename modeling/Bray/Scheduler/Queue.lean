/-
  File:      Bray/Scheduler/Queue.lean
  Subject:   LANE QUEUES (scheduler/queue.bray), lane equality (lane.bray) and the lookup of a
             registration (admission.bray).

  Every function takes the state under the domain's lock and returns the state it leaves, or the
  fault that stops the process. The search for a lane's header (`queueFor`) is the one loop; it
  is cut off after as many steps as there are headers, and `Fault.loop` marks that cut.
-/
import Bray.Scheduler.Parking

namespace Bray.Scheduler

/-- `entry` (admission.bray): the entry at a nonzero index. -/
def entry (state : State) (index : Nat) : Except Fault Entry :=
  match state.entries with
  | none => .error .entriesAbsent
  | some _ => if state.HasRow index then .ok (state.row index) else .error .bounds

/-- `queue`: the lane header at a nonzero index. -/
def queue (state : State) (index : Nat) : Except Fault Queue :=
  match state.queues with
  | none => .error .queuesAbsent
  | some _ => if state.HasHeader index then .ok (state.header index) else .error .bounds

/-- A write through the reference `entry` returns. -/
def modifyEntry (state : State) (index : Nat) (change : Entry → Entry) : Except Fault State := do
  let row ← entry state index
  pure (state.setRow index (change row))

/-- A write through the reference `queue` returns. -/
def modifyQueue (state : State) (index : Nat) (change : Queue → Queue) : Except Fault State := do
  let current ← queue state index
  pure (state.setHeader index (change current))

/-- `if previous == 0 { state.head = next } else { queue(state, previous).next = next }`. -/
def linkForward (state : State) (previous next : Nat) : Except Fault State :=
  if previous = 0 then .ok { state with head := next }
  else modifyQueue state previous fun row => { row with next := next }

/-- `if next == 0 { state.tail = previous } else { queue(state, next).previous = previous }`. -/
def linkBackward (state : State) (next previous : Nat) : Except Fault State :=
  if next = 0 then .ok { state with tail := previous }
  else modifyQueue state next fun row => { row with previous := previous }

def unlinkQueue (state : State) (index : Nat) : Except Fault State := do
  let current ← queue state index
  let state ← linkForward state current.previous current.next
  linkBackward state current.next current.previous

def appendQueue (state : State) (index : Nat) : Except Fault State := do
  let tail := state.tail
  let state ← modifyQueue state index fun row => { row with previous := tail, next := 0 }
  let state ← linkForward state tail index
  pure { state with tail := index }

def sameLane (first second : Lane) : Bool :=
  first.placement == second.placement && first.workload == second.workload &&
    first.thread == second.thread

/-- The `while` loop of `queue_for`: the first active header of the lane, zero for none. -/
def searchLane (state : State) (lane : Lane) : Nat → Nat → Except Fault Nat
  | _, 0 => .ok 0
  | 0, _ + 1 => .error .loop
  | fuel + 1, index + 1 => do
    let current ← queue state (index + 1)
    if sameLane current.lane lane then pure (index + 1)
    else searchLane state lane fuel current.next

/-- The cache test of `queue_for`. -/
def cacheHit (state : State) (lane : Lane) (cached : Nat) : Except Fault Bool :=
  if cached = 0 then .ok false
  else do
    let current ← queue state cached
    pure (current.head != 0 && sameLane current.lane lane)

/-- The last part of `queue_for`: a free header becomes the last active one. -/
def activateHeader (state : State) (lane : Lane) : Except Fault (State × Nat) :=
  let freeIndex := state.freeQueue
  if freeIndex = 0 then .error .headersExhausted
  else do
    let current ← queue state freeIndex
    let next := current.next
    let state ← modifyQueue state freeIndex fun row =>
      { row with lane := lane, head := 0, tail := 0 }
    let state ← appendQueue { state with freeQueue := next } freeIndex
    pure (state, freeIndex)

/-- `queue_for`: the cached header if it is active for this lane, else the active header of the
    lane, else a free header. -/
def queueFor (state : State) (lane : Lane) (cached : Nat) : Except Fault (State × Nat) := do
  let hit ← cacheHit state lane cached
  if hit then pure (state, cached)
  else do
    let found ← searchLane state lane state.queueCount state.head
    if found ≠ 0 then pure (state, found) else activateHeader state lane

/-- `if previous == 0 { queue(state, owner).head = next } else { entry(state, previous).next = next }`. -/
def linkAfter (state : State) (owner previous next : Nat) : Except Fault State :=
  if previous = 0 then modifyQueue state owner fun current => { current with head := next }
  else modifyEntry state previous fun row => { row with next := next }

/-- `if next == 0 { queue(state, owner).tail = previous } else { entry(state, next).previous = previous }`. -/
def linkBefore (state : State) (owner next previous : Nat) : Except Fault State :=
  if next = 0 then modifyQueue state owner fun current => { current with tail := previous }
  else modifyEntry state next fun row => { row with previous := previous }

/-- The first half of `unlink`: the neighbours of an entry, or its lane header, are linked past
    it. -/
def detach (state : State) (index : Nat) : Except Fault State := do
  let row ← entry state index
  let state ← modifyEntry state index fun row => { row with previous := 0, next := 0 }
  let state ← linkAfter state row.queue row.previous row.next
  linkBefore state row.queue row.next row.previous

/-- The second half of `unlink`: an emptied header leaves the active lanes and becomes free. -/
def retireHeader (state : State) (owner : Nat) : Except Fault State := do
  let state ← unlinkQueue state owner
  let free := state.freeQueue
  let state ← modifyQueue state owner fun current => { current with previous := 0, next := free }
  pure { state with freeQueue := owner }

/-- `unlink`: takes an entry out of its lane queue. -/
def unlink (state : State) (index : Nat) : Except Fault State := do
  let row ← entry state index
  let state ← detach state index
  let current ← queue state row.queue
  if current.head = 0 then retireHeader state row.queue else pure state

/-- The part of `enqueue` behind the choice of the header: the entry becomes the header's last. -/
def attach (state : State) (owner index cause now : Nat) : Except Fault State := do
  let current ← queue state owner
  let tail := current.tail
  let state ← modifyEntry state index fun row =>
    { row with phase := 1, cause := cause, queuedAt := now, queue := owner, previous := tail, next := 0 }
  let state ← linkAfter state owner tail index
  modifyQueue state owner fun current => { current with tail := index }

/-- `enqueue`: puts an entry behind the other ready entries of its lane. -/
def enqueue (state : State) (index cause now : Nat) : Except Fault State := do
  let row ← entry state index
  let (state, owner) ← queueFor state row.lane row.queue
  attach state owner index cause now

/-- A registration token: the generation above the index. -/
def token (generation index : Nat) : Nat := generation <<< 32 ||| index

/-- `index_of` (admission.bray): the index of a live registration, zero for a stale one. -/
def indexOf (state : State) (registration : Nat) : Except Fault Nat :=
  let index := registration % 2 ^ 32
  if index = 0 then .ok 0
  else
    match state.entries with
    | none => .ok 0
    | some entries =>
      if index > entries.initialized then .ok 0
      else do
        let row ← entry state index
        if row.generation ≠ (registration >>> 32) % 2 ^ 32 ∨ row.phase = 3 then pure 0
        else pure index

/-- `if row.wakes != U64_MAX { row.wakes += 1 }`. -/
def countWake (row : Entry) : Entry :=
  if row.wakes ≠ u64Max then { row with wakes := row.wakes + 1 } else row

/-- `wake`: 2 for a stale registration, 0 for a wake that joins an earlier one or is recorded on
    a running entry, 1 for a wake that queued the entry. -/
def wake (value : Domain) (registration cause now : Nat) : Except Fault (Domain × Nat) := do
  let state := value.state
  let index ← indexOf state registration
  if index = 0 then pure (value, 2)
  else do
    let row ← entry state index
    if row.phase = 1 then pure (value, 0)
    else if row.phase = 2 ∧ row.pending ≠ 0 then pure (value, 0)
    else do
      let state ← modifyEntry state index countWake
      if row.phase = 2 then do
        let state ← modifyEntry state index fun row => { row with pending := cause }
        pure ({ value with state := state }, 0)
      else do
        let state ← enqueue state index cause now
        pure ((prepareSignal { value with state := state }).1, 1)

/-- `running -= 1` of an unsigned counter. -/
def decrement (state : State) : Except Fault State :=
  if state.running = 0 then .error .underflow else .ok { state with running := state.running - 1 }

/-- The entry a withdrawal leaves. -/
def retireRow (free : Nat) (row : Entry) : Entry :=
  { row with slot := false, phase := 3, next := free, previous := 0, pending := 0 }

/-- `withdrawal`: retires a registration in any phase. -/
def withdrawal (value : Domain) (registration : Nat) : Except Fault Domain := do
  let state := value.state
  let index ← indexOf state registration
  if index = 0 then pure value
  else do
    let row ← entry state index
    let state ← (if row.phase = 1 then unlink state index else .ok state)
    let free := state.free
    let row ← entry state index
    let state ← modifyEntry state index (retireRow free)
    let state ← (if row.slot then decrement state else .ok state)
    pure (prepareSignal { value with state := { state with free := index } }).1

end Bray.Scheduler
