/-
  File:      Bray/Batch/Plan.lean
  Subject:   BATCH COMPLETION (fact/batch.rs): the closure of the roots under required work, completed in
    waves.

  A wave is all keys that are ready; its items are evaluated as the indices of a range, in any order and by any
  number of workers (`MapIndexed`). When all have returned, their values are appended in the order of the
  wave and the keys they require are scheduled, each once.
-/
import Bray.Batch.Lanes
import Mathlib.Data.Finset.Insert

namespace Bray.Batch

variable {K T E X : Type}

structure BatchWork (K T : Type) where
  value : T
  required : List K

/-- A failure of a query: cancellation, or another one. -/
inductive FactQueryError (X : Type) where
  | cancelled
  | other (failure : X)

inductive BatchCompletionError (K E X : Type) where
  | cancelled
  | evaluation (key : K) (error : E)
  | scheduler (error : FactQueryError X)

/-- How completing a batch stops short: with an error, or with a panic. -/
inductive Halt (K E X : Type) where
  | completion (error : BatchCompletionError K E X)
  | panic

/-! ## 1. The runtime's `map_indexed` -/

/-- An operation within the caller's evaluations: installing them may fail. -/
def runWithEvaluations (entering : Option (FactQueryError X)) (value : T) : Except (FactQueryError X) T :=
  match entering with
  | some failure => .error failure
  | none => .ok value

/-- The values, unless mapping failed or an operation could not be entered: then the first such failure in
the order of the indices. -/
def collectResults (outcome : Except (Stop (FactQueryError X)) (List (Except (FactQueryError X) T))) :
  Except (Stop (FactQueryError X)) (List T) :=
  match outcome with
  | .error stop => .error stop
  | .ok results =>
    match results.mapM id with
    | .error failure => .error (.failed failure)
    | .ok values => .ok values

/-- **`FactRuntime::map_indexed`.** -/
inductive RuntimeMapIndexed (workerCount len : Nat) (failing : FactQueryError X → Prop) (operation : Nat → T) :
  List Nat → Except (Stop (FactQueryError X)) (List T) → Prop where
  | captureFails {failure : FactQueryError X} (fails : failing failure) :
    RuntimeMapIndexed workerCount len failing operation [] (.error (.failed failure))
  | map {log : List Nat} {outcome : Except (Stop (FactQueryError X)) (List (Except (FactQueryError X) T))}
    (entering : Nat → Option (FactQueryError X))
    (allowed : ∀ index failure, entering index = some failure → failing failure)
    (run : MapIndexed workerCount len failing
      (fun index => runWithEvaluations (entering index) (operation index)) log outcome) :
    RuntimeMapIndexed workerCount len failing operation log (collectResults outcome)

/-! ## 2. The plan -/

structure BatchPlan (K T : Type) where
  seen : Finset K
  ready : List K
  completed : List (K × T)

namespace BatchPlan

variable [DecidableEq K]

def schedule (plan : BatchPlan K T) (key : K) : BatchPlan K T :=
  if key ∈ plan.seen then plan else { plan with seen := insert key plan.seen, ready := plan.ready ++ [key] }

def new (roots : List K) : BatchPlan K T := roots.foldl schedule ⟨∅, [], []⟩

def takeWave (plan : BatchPlan K T) : Option (List K × BatchPlan K T) :=
  if plan.ready = [] then none else some (plan.ready, { plan with ready := [] })

def completeItem (plan : BatchPlan K T) (item : K × BatchWork K T) : BatchPlan K T :=
  item.2.required.foldl schedule { plan with completed := plan.completed ++ [(item.1, item.2.value)] }

def completeWave (plan : BatchPlan K T) (completed : List (K × BatchWork K T)) : BatchPlan K T :=
  completed.foldl completeItem plan

def finish (plan : BatchPlan K T) : List (K × T) := plan.completed

end BatchPlan

/-! ## 3. Waves -/

/-- What became of an item: `none` is an index outside of the wave, a panic. -/
abbrev Item (K T E X : Type) := Option (Except (FactQueryError X) (Except E (BatchWork K T)))

/-- The operation on an index of a wave; `cancelled` says where the token is found cancelled. -/
def evaluateItem (evaluator : K → Except E (BatchWork K T)) (wave : List K) (cancelled : Nat → Bool)
  (index : Nat) : Item K T E X :=
  if cancelled index then some (.error .cancelled)
  else wave[index]?.map fun key => .ok (evaluator key)

/-- The items of a wave one after the other, up to the first that failed. -/
def completeItems : List (K × Item K T E X) → Except (Halt K E X) (List (K × BatchWork K T))
  | [] => .ok []
  | (_, none) :: _ => .error .panic
  | (_, some (.error .cancelled)) :: _ => .error (.completion .cancelled)
  | (_, some (.error error)) :: _ => .error (.completion (.scheduler error))
  | (key, some (.ok (.error error))) :: _ => .error (.completion (.evaluation key error))
  | (key, some (.ok (.ok work))) :: items =>
    match completeItems items with
    | .error halt => .error halt
    | .ok completed => .ok ((key, work) :: completed)

/-- What mapping the wave returned, with its items. -/
def receiveWave (wave : List K) (outcome : Except (Stop (FactQueryError X)) (List (Item K T E X))) :
  Except (Halt K E X) (List (K × BatchWork K T)) :=
  match outcome with
  | .error (.failed .cancelled) => .error (.completion .cancelled)
  | .error (.failed error) => .error (.completion (.scheduler error))
  | .error .workerTerminated => .error .panic
  | .ok items => completeItems (wave.zip items)

variable [DecidableEq K]

/-- **A turn of `complete_batch`**: the plan after a wave, or how it stops. `cancelled` says whether the token
is ever cancelled, `failing` with what the scheduler may fail. -/
inductive Wave (workerCount : Nat) (failing : FactQueryError X → Prop) (cancelled : Prop)
  (evaluator : K → Except E (BatchWork K T)) : BatchPlan K T → Except (Halt K E X) (BatchPlan K T) → Prop where
  | cancelledBefore {plan taken : BatchPlan K T} {wave : List K} (takes : plan.takeWave = some (wave, taken))
    (token : cancelled) :
    Wave workerCount failing cancelled evaluator plan (.error (.completion .cancelled))
  | stops {plan taken : BatchPlan K T} {wave : List K} {log : List Nat}
    {outcome : Except (Stop (FactQueryError X)) (List (Item K T E X))} {halt : Halt K E X}
    (takes : plan.takeWave = some (wave, taken)) (checks : Nat → Bool)
    (token : ∀ index, checks index = true → cancelled)
    (run : RuntimeMapIndexed workerCount wave.length failing (evaluateItem evaluator wave checks) log outcome)
    (stopped : receiveWave wave outcome = .error halt) :
    Wave workerCount failing cancelled evaluator plan (.error halt)
  | cancelledAfter {plan taken : BatchPlan K T} {wave : List K} {log : List Nat}
    {outcome : Except (Stop (FactQueryError X)) (List (Item K T E X))} {completed : List (K × BatchWork K T)}
    (takes : plan.takeWave = some (wave, taken)) (checks : Nat → Bool)
    (run : RuntimeMapIndexed workerCount wave.length failing (evaluateItem evaluator wave checks) log outcome)
    (received : receiveWave wave outcome = .ok completed) (token : cancelled) :
    Wave workerCount failing cancelled evaluator plan (.error (.completion .cancelled))
  | completes {plan taken : BatchPlan K T} {wave : List K} {log : List Nat}
    {outcome : Except (Stop (FactQueryError X)) (List (Item K T E X))} {completed : List (K × BatchWork K T)}
    (takes : plan.takeWave = some (wave, taken)) (checks : Nat → Bool)
    (token : ∀ index, checks index = true → cancelled)
    (run : RuntimeMapIndexed workerCount wave.length failing (evaluateItem evaluator wave checks) log outcome)
    (received : receiveWave wave outcome = .ok completed) :
    Wave workerCount failing cancelled evaluator plan (.ok (taken.completeWave completed))

/-- **`complete_batch`** from a plan on. -/
inductive CompleteBatch (workerCount : Nat) (failing : FactQueryError X → Prop) (cancelled : Prop)
  (evaluator : K → Except E (BatchWork K T)) : BatchPlan K T → Except (Halt K E X) (List (K × T)) → Prop where
  | done {plan : BatchPlan K T} (idle : plan.takeWave = none) :
    CompleteBatch workerCount failing cancelled evaluator plan (.ok plan.finish)
  | stops {plan : BatchPlan K T} {halt : Halt K E X}
    (wave : Wave workerCount failing cancelled evaluator plan (.error halt)) :
    CompleteBatch workerCount failing cancelled evaluator plan (.error halt)
  | wave {plan plan' : BatchPlan K T} {outcome : Except (Halt K E X) (List (K × T))}
    (wave : Wave workerCount failing cancelled evaluator plan (.ok plan'))
    (rest : CompleteBatch workerCount failing cancelled evaluator plan' outcome) :
    CompleteBatch workerCount failing cancelled evaluator plan outcome

end Bray.Batch
