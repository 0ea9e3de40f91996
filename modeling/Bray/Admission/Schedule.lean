/-
  File:      Bray/Admission/Schedule.lean
  Subject:   TEST ADMISSION (bray-test-protocol, scheduling.rs): the execution plan and the schedule that admits
    its invocations.

  Identities of tests are ordered; what a result reports beside its identity is a parameter. Byte counts are
  64-bit; an addition that overflows and an index out of range are panics.
-/
import Bray.Lib.Check
import Bray.Lib.Run
import Bray.Lib.SortedMap
import Mathlib.Data.PNat.Basic

namespace Bray.Admission

open Lib

/-! ## 1. The plan -/

inductive TestExecutionConstraint where
  | parallel
  | serial
  deriving DecidableEq

structure TestEntryMetadata (Identity : Type) where
  identity : Identity
  constraint : TestExecutionConstraint
  deriving DecidableEq

structure TestCaptureLimits where
  perStreamByteLimit : UInt64
  invocationByteLimit : UInt64
  deriving DecidableEq

inductive TestCapturePolicy where
  | captured (limits : TestCaptureLimits)
  | inherited
  | discarded
  deriving DecidableEq

def captureReservation : TestCapturePolicy → UInt64
  | .captured limits => limits.invocationByteLimit
  | .inherited | .discarded => 0

structure TestInvocationPlan (Identity : Type) where
  identity : Identity
  capture : TestCapturePolicy
  deriving DecidableEq

inductive TestExecutionMode where
  | sequential
  | parallel (maximumConcurrency : ℕ+)
  deriving DecidableEq

def TestExecutionMode.maximumConcurrency : TestExecutionMode → ℕ+
  | .sequential => ⟨1, Nat.one_pos⟩
  | .parallel maximumConcurrency => maximumConcurrency

inductive TestExecutionPlanBuildError (Identity : Type) where
  | invocationCountMismatch (entries invocations : Nat)
  | invocationIdentityMismatch (test : Identity)
  | duplicateIdentity (test : Identity)
  | captureBudgetExceeded (test : Identity) (required maximum : UInt64)
  deriving DecidableEq

structure TestExecutionPlan (Identity : Type) where
  entries : List (TestEntryMetadata Identity)
  invocations : List (TestInvocationPlan Identity)
  mode : TestExecutionMode
  captureByteBudget : UInt64
  deriving DecidableEq

variable {Identity : Type} [LinearOrder Identity]

/-- The identity of the first entry that repeats the one before it. -/
def duplicateIdentity : List (TestEntryMetadata Identity) → Option Identity
  | first :: second :: rest =>
    if first.identity = second.identity then some second.identity else duplicateIdentity (second :: rest)
  | _ => none

/-- One invocation against the entry at its place. -/
def checkInvocation (captureByteBudget : UInt64)
  (pair : TestEntryMetadata Identity × TestInvocationPlan Identity) :
  Except (TestExecutionPlanBuildError Identity) Unit :=
  if pair.1.identity ≠ pair.2.identity then .error (.invocationIdentityMismatch pair.2.identity)
  else if captureByteBudget < captureReservation pair.2.capture then
    .error (.captureBudgetExceeded pair.2.identity (captureReservation pair.2.capture) captureByteBudget)
  else .ok ()

/-- The selected entries and the invocations, in the order of their identities. -/
def TestExecutionPlan.sorted (selections : List (List (TestEntryMetadata Identity)))
  (invocations : List (TestInvocationPlan Identity)) (mode : TestExecutionMode) (captureByteBudget : UInt64) :
  TestExecutionPlan Identity where
  entries := selections.flatten.mergeSort fun left right => left.identity ≤ right.identity
  invocations := invocations.mergeSort fun left right => left.identity ≤ right.identity
  mode := mode
  captureByteBudget := captureByteBudget

def TestExecutionPlan.check (plan : TestExecutionPlan Identity) :
  Except (TestExecutionPlanBuildError Identity) (TestExecutionPlan Identity) :=
  match duplicateIdentity plan.entries with
  | some duplicate => .error (.duplicateIdentity duplicate)
  | none =>
    if plan.entries.length ≠ plan.invocations.length then
      .error (.invocationCountMismatch plan.entries.length plan.invocations.length)
    else do
      List.forM (plan.entries.zip plan.invocations) (checkInvocation plan.captureByteBudget)
      .ok plan

def TestExecutionPlan.tryNew (selections : List (List (TestEntryMetadata Identity)))
  (invocations : List (TestInvocationPlan Identity)) (mode : TestExecutionMode) (captureByteBudget : UInt64) :
  Except (TestExecutionPlanBuildError Identity) (TestExecutionPlan Identity) :=
  (TestExecutionPlan.sorted selections invocations mode captureByteBudget).check

/-! ## 2. The schedule -/

structure TestAdmission (Identity : Type) where
  catalogIndex : Nat
  entry : TestEntryMetadata Identity
  invocation : TestInvocationPlan Identity

inductive TestInfrastructureFailure where
  | protocol
  | host
  | capture
  | resourceExhausted
  | missingOutcome
  | cleanup
  | forcedTermination

inductive TestStopReason where
  | cancelled
  | infrastructureFailure (failure : TestInfrastructureFailure)

inductive TestSchedulingError (Identity : Type) where
  | invocationNotActive (test : Identity)
  | resultIdentityMismatch (test : Identity)

structure TestInvocationResult (Identity Report : Type) where
  identity : Identity
  report : Report

structure ActiveAdmission where
  catalogIndex : Nat
  captureBytes : UInt64
  serial : Bool

structure TestAdmissionSchedule (Identity Report : Type) [LinearOrder Identity] where
  plan : TestExecutionPlan Identity
  nextIndex : Nat
  active : SortedMap (compare : Identity → Identity → Ordering) ActiveAdmission
  completed : List (Option (TestInvocationResult Identity Report))
  activeCaptureBytes : UInt64
  activeSerial : Bool
  stopReason : Option TestStopReason

inductive Fault where
  | overflow
  | outOfRange

def checkedAdd (first second : UInt64) : Except Fault UInt64 :=
  if first.toNat + second.toNat < UInt64.size then .ok (first + second) else .error .overflow

def saturatingSub (first second : UInt64) : UInt64 := if second ≤ first then first - second else 0

variable {Report : Type}

namespace TestAdmissionSchedule

def new (plan : TestExecutionPlan Identity) : TestAdmissionSchedule Identity Report where
  plan := plan
  nextIndex := 0
  active := .empty _ _
  completed := List.replicate plan.entries.length none
  activeCaptureBytes := 0
  activeSerial := false
  stopReason := none

/-- The schedule with the entry at its next index active. -/
def start (schedule : TestAdmissionSchedule Identity Report) (entry : TestEntryMetadata Identity)
  (invocation : TestInvocationPlan Identity) (activeCaptureBytes : UInt64) :
  TestAdmissionSchedule Identity Report :=
  { schedule with
    nextIndex := schedule.nextIndex + 1
    activeCaptureBytes := activeCaptureBytes
    activeSerial := entry.constraint = .serial
    active := schedule.active.insert invocation.identity
      ⟨schedule.nextIndex, captureReservation invocation.capture, entry.constraint = .serial⟩ }

/-- The limits of what is active, checked for one entry. -/
def admitEntry (schedule : TestAdmissionSchedule Identity Report) (entry : TestEntryMetadata Identity)
  (invocation : TestInvocationPlan Identity) :
  Except Fault (TestAdmissionSchedule Identity Report × Option (TestAdmission Identity)) :=
  if entry.constraint = .serial ∧ schedule.active.entries ≠ [] then .ok (schedule, none)
  else if saturatingSub schedule.plan.captureByteBudget schedule.activeCaptureBytes <
    captureReservation invocation.capture then .ok (schedule, none)
  else do
    let activeCaptureBytes ← checkedAdd schedule.activeCaptureBytes (captureReservation invocation.capture)
    .ok (schedule.start entry invocation activeCaptureBytes, some ⟨schedule.nextIndex, entry, invocation⟩)

def admitNext (schedule : TestAdmissionSchedule Identity Report) :
  Except Fault (TestAdmissionSchedule Identity Report × Option (TestAdmission Identity)) :=
  if schedule.stopReason.isSome = true ∨ schedule.activeSerial = true ∨
    schedule.plan.mode.maximumConcurrency ≤ schedule.active.entries.length then .ok (schedule, none)
  else
    match schedule.plan.entries[schedule.nextIndex]? with
    | none => .ok (schedule, none)
    | some entry =>
      match schedule.plan.invocations[schedule.nextIndex]? with
      | none => .error .outOfRange
      | some invocation => schedule.admitEntry entry invocation

def release (schedule : TestAdmissionSchedule Identity Report) (active : ActiveAdmission)
  (result : TestInvocationResult Identity Report) : TestAdmissionSchedule Identity Report :=
  { schedule with
    active := schedule.active.erase result.identity
    activeCaptureBytes := saturatingSub schedule.activeCaptureBytes active.captureBytes
    activeSerial := if active.serial then false else schedule.activeSerial
    completed := schedule.completed.set active.catalogIndex (some result) }

def complete (schedule : TestAdmissionSchedule Identity Report) (admission : TestAdmission Identity)
  (result : TestInvocationResult Identity Report) :
  Except Fault (TestAdmissionSchedule Identity Report × Except (TestSchedulingError Identity) Unit) :=
  if result.identity ≠ admission.invocation.identity then
    .ok (schedule, .error (.resultIdentityMismatch result.identity))
  else
    match schedule.active.get? result.identity with
    | none => .ok (schedule, .error (.invocationNotActive result.identity))
    | some active =>
      if active.catalogIndex ≠ admission.catalogIndex then
        -- the removed entry is put back
        .ok ({ schedule with active := (schedule.active.erase result.identity).insert result.identity active },
          .error (.invocationNotActive result.identity))
      else if active.catalogIndex < schedule.completed.length then .ok (schedule.release active result, .ok ())
      else .error .outOfRange

def activeIdentities (schedule : TestAdmissionSchedule Identity Report) : List Identity :=
  (schedule.active.entries.foldl (fun (byIndex : SortedMap (compare : Nat → Nat → Ordering) Identity) entry =>
    byIndex.insert entry.2.catalogIndex entry.1) (.empty _ _)).entries.map Prod.snd

def stop (schedule : TestAdmissionSchedule Identity Report) (reason : TestStopReason) :
  TestAdmissionSchedule Identity Report × List Identity :=
  ({ schedule with stopReason := some (schedule.stopReason.getD reason) }, schedule.activeIdentities)

def completedResults (schedule : TestAdmissionSchedule Identity Report) : List (TestInvocationResult Identity Report) :=
  schedule.completed.filterMap id

end TestAdmissionSchedule

/-! ## 3. Calls -/

inductive Operation (Identity Report : Type) where
  | admitNext
  | complete (admission : TestAdmission Identity) (result : TestInvocationResult Identity Report)
  | stop (reason : TestStopReason)

/-- What a call returns. -/
inductive Answer (Identity : Type) where
  | admitted (admission : Option (TestAdmission Identity))
  | completed (outcome : Except (TestSchedulingError Identity) Unit)
  | stopped (active : List Identity)

def step (schedule : TestAdmissionSchedule Identity Report) :
  Operation Identity Report → Except Fault (TestAdmissionSchedule Identity Report × Answer Identity)
  | .admitNext => do
    let (schedule, admission) ← schedule.admitNext
    .ok (schedule, .admitted admission)
  | .complete admission result => do
    let (schedule, outcome) ← schedule.complete admission result
    .ok (schedule, .completed outcome)
  | .stop reason => .ok ((schedule.stop reason).1, .stopped (schedule.stop reason).2)

/-- The admissions of a run, in order. -/
def admitted (trace : List (Operation Identity Report × Answer Identity)) : List (TestAdmission Identity) :=
  trace.filterMap fun call =>
    match call.2 with
    | .admitted admission => admission
    | .completed _ | .stopped _ => none

end Bray.Admission
