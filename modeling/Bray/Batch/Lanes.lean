/-
  File:      Bray/Batch/Lanes.lean
  Subject:   INDEXED WORK (scheduler/core.rs): a range of indices is evaluated by lanes that share a
    counter, or by one task for each index.

  * within a worker, `map_indexed_nested` evaluates the indices one by one until a slot is free, and then
    hands the rest to lanes; a lane spawns others while slots are free, claims the next index, evaluates it
    and goes on until no index is left;
  * outside of a worker, `map_indexed_core` spawns a task for each index.

  Every load and `fetch_add` of the counter, every attempt to acquire a slot and every evaluation is a step
  of one lane; the lanes take their steps in any order. A failure is recorded with its index, the smallest
  one wins. Each result has a place of its own.
-/
import Mathlib.Data.List.Range
import Mathlib.Data.List.Perm.Basic

namespace Bray.Batch

variable {T F : Type}

/-- What is recorded of failures: the smallest item that failed, with its failure. -/
def recordSchedulerError (current : Option (Nat × F)) (item : Nat) (failure : F) : Option (Nat × F) :=
  match current with
  | none => some (item, failure)
  | some (currentItem, _) => if item < currentItem then some (item, failure) else current

theorem recordSchedulerError_ne_none (current : Option (Nat × F)) (item : Nat) (failure : F) :
    recordSchedulerError current item failure ≠ none := by
  unfold recordSchedulerError
  split
  · nofun
  · split <;> nofun

/-! ## 1. Lanes -/

/-- What the lanes share: the counter, the places of the results, the recorded failure. -/
structure Shared (T F : Type) where
  next : Nat
  results : Nat → Option T
  error : Option (Nat × F)

/-- Where a lane is in `run_indexed_lane`. A lane that has returned is gone. -/
inductive Lane where
  /-- Spawned, not started. -/
  | starting
  /-- At the head of the loop that spawns lanes. -/
  | looping
  /-- About to try for a slot. -/
  | acquiring
  /-- About to claim an index. -/
  | claiming
  | evaluating (index : Nat)

/-- The answer of `try_acquire`, and of whatever else of the scheduler can fail. -/
inductive Acquired (F : Type) where
  | granted
  | refused
  | failed (failure : F)

/-- A lane holds a slot; an evaluation may give it back for a while. -/
def Lane.holdsSlot : Lane → Bool
  | .evaluating _ => false
  | _ => true

/-- **One step of a lane**: the shared state after it, and the lanes that stand in its place. `busy` lanes
hold a slot for certain, so that none is granted when these are `limit` already. -/
def turn (len limit busy : Nat) (evaluate : Nat → Except F T) (answer : Acquired F) (shared : Shared T F) :
  Lane → Shared T F × List Lane
  | .starting =>
    match answer with
    | .failed failure =>
      ({ shared with error := recordSchedulerError shared.error shared.next failure }, [])
    | _ => (shared, [.looping])
  | .looping => (shared, [if shared.next + 1 < len then .acquiring else .claiming])
  | .acquiring =>
    match answer with
    | .granted => (shared, if busy < limit then [.looping, .starting] else [.claiming])
    | .refused => (shared, [.claiming])
    | .failed failure =>
      ({ shared with error := recordSchedulerError shared.error shared.next failure }, [])
  | .claiming =>
    ({ shared with next := shared.next + 1 },
      if shared.next < len then [.evaluating shared.next] else [])
  | .evaluating index =>
    match evaluate index with
    | .ok value => ({ shared with results := Function.update shared.results index (some value) }, [.looping])
    | .error failure => ({ shared with error := recordSchedulerError shared.error index failure }, [])

/-- The index that a step of a lane evaluates. -/
def evaluates : Lane → List Nat
  | .evaluating index => [index]
  | _ => []

structure State (T F : Type) where
  shared : Shared T F
  lanes : List Lane

/-- **A step of the lanes**: any of them takes its step. The scheduler fails with the failures of `failing`
only. -/
inductive Step (len limit : Nat) (failing : F → Prop) (evaluate : Nat → Except F T) :
  State T F → List Nat → State T F → Prop where
  | turn (shared : Shared T F) (before : List Lane) (lane : Lane) (after : List Lane) (answer : Acquired F)
    (allowed : ∀ failure, answer = .failed failure → failing failure) :
    Step len limit failing evaluate ⟨shared, before ++ lane :: after⟩ (evaluates lane)
      ⟨(turn len limit ((before ++ lane :: after).countP Lane.holdsSlot) evaluate answer shared lane).1,
        before ++ (turn len limit ((before ++ lane :: after).countP Lane.holdsSlot) evaluate answer shared lane).2 ++
          after⟩

/-- A run of the lanes, with the indices that it evaluates in order. -/
inductive Lanes (len limit : Nat) (failing : F → Prop) (evaluate : Nat → Except F T) :
  State T F → List Nat → State T F → Prop where
  | nil (state : State T F) : Lanes len limit failing evaluate state [] state
  | cons {state state' state'' : State T F} {log log' : List Nat}
    (step : Step len limit failing evaluate state log state')
    (rest : Lanes len limit failing evaluate state' log' state'') :
    Lanes len limit failing evaluate state (log ++ log') state''

/-- What the lanes leave when all have returned: the recorded failure, or the results. -/
def join (shared : Shared T F) : Except F (Nat → Option T) :=
  match shared.error with
  | some (_, failure) => .error failure
  | none => .ok shared.results

/-- The lanes begin: the caller goes on as one, another is spawned with the slot that was granted. -/
def begin (index : Nat) (results : Nat → Option T) : State T F :=
  ⟨⟨index, results, none⟩, [.starting, .looping]⟩

/-- **`map_indexed_nested`** from an index on, with the results so far: the indices evaluated from here on,
and how it ends. -/
inductive Nested (len workerCount : Nat) (failing : F → Prop) (evaluate : Nat → Except F T) :
  Nat → (Nat → Option T) → List Nat → Except F (Nat → Option T) → Prop where
  | done {index : Nat} {results : Nat → Option T} (reached : len ≤ index) :
    Nested len workerCount failing evaluate index results [] (.ok results)
  | acquireFails {index : Nat} {results : Nat → Option T} {failure : F} (parallel : 1 < workerCount)
    (more : index + 1 < len) (fails : failing failure) :
    Nested len workerCount failing evaluate index results [] (.error failure)
  | alone {index : Nat} {results : Nat → Option T} {log : List Nat} {outcome : Except F (Nat → Option T)}
    {value : T} (inside : index < len) (evaluated : evaluate index = .ok value)
    (rest : Nested len workerCount failing evaluate (index + 1)
      (Function.update results index (some value)) log outcome) :
    Nested len workerCount failing evaluate index results (index :: log) outcome
  | aloneFails {index : Nat} {results : Nat → Option T} {failure : F} (inside : index < len)
    (evaluated : evaluate index = .error failure) :
    Nested len workerCount failing evaluate index results [index] (.error failure)
  | lanes {index : Nat} {results : Nat → Option T} {log : List Nat} {shared : Shared T F}
    (parallel : 1 < workerCount) (more : index + 1 < len)
    (run : Lanes len workerCount failing evaluate (begin index results) log ⟨shared, []⟩) :
    Nested len workerCount failing evaluate index results log (join shared)
  | resumeFails {index : Nat} {results : Nat → Option T} {log : List Nat} {shared : Shared T F} {failure : F}
    (parallel : 1 < workerCount) (more : index + 1 < len)
    (run : Lanes len workerCount failing evaluate (begin index results) log ⟨shared, []⟩)
    (fails : failing failure) :
    Nested len workerCount failing evaluate index results log (.error failure)

/-! ## 2. Tasks -/

/-- A task runs: it evaluates its index, unless it fails to acquire a slot. -/
def runTask (evaluate : Nat → Except F T) (shared : Shared T F) (task : Nat × Option F) : Shared T F :=
  match task.2 with
  | some failure => { shared with error := recordSchedulerError shared.error task.1 failure }
  | none =>
    match evaluate task.1 with
    | .ok value => { shared with results := Function.update shared.results task.1 (some value) }
    | .error failure => { shared with error := recordSchedulerError shared.error task.1 failure }

/-- **The scope of `map_indexed_core`**: one task for each index, run in any order. -/
inductive Scoped (len : Nat) (failing : F → Prop) (evaluate : Nat → Except F T) :
  List Nat → Except F (Nat → Option T) → Prop where
  | scope (tasks : List (Nat × Option F)) (each : (tasks.map Prod.fst).Perm (List.range len))
    (allowed : ∀ task ∈ tasks, ∀ failure, task.2 = some failure → failing failure) :
    Scoped len failing evaluate ((tasks.filter fun task => task.2.isNone).map Prod.fst)
      (join (tasks.foldl (runTask evaluate) ⟨0, fun _ => none, none⟩))

/-! ## 3. Mapping a range -/

/-- How mapping a range stops short: a failure, or a result that is missing (a panic). -/
inductive Stop (F : Type) where
  | failed (failure : F)
  | workerTerminated

/-- The results in the order of their indices. -/
def collectScheduledResults (len : Nat) (results : Nat → Option T) : Except (Stop F) (List T) :=
  match (List.range len).mapM results with
  | some values => .ok values
  | none => .error .workerTerminated

def finish (len : Nat) : Except F (Nat → Option T) → Except (Stop F) (List T)
  | .error failure => .error (.failed failure)
  | .ok results => collectScheduledResults len results

/-- **`map_indexed`**: within a worker the indices are nested work, outside they are tasks. An evaluation
publishes what the operation returns and does not fail. -/
inductive MapIndexed (workerCount len : Nat) (failing : F → Prop) (operation : Nat → T) :
  List Nat → Except (Stop F) (List T) → Prop where
  | active {log : List Nat} {outcome : Except F (Nat → Option T)}
    (run : Nested len workerCount failing (fun index => .ok (operation index)) 0 (fun _ => none) log outcome) :
    MapIndexed workerCount len failing operation log (finish len outcome)
  | inactive {log : List Nat} {outcome : Except F (Nat → Option T)}
    (run : Scoped len failing (fun index => .ok (operation index)) log outcome) :
    MapIndexed workerCount len failing operation log (finish len outcome)

end Bray.Batch
