/-
  File:      Bray/Scheduler/System.lean
  Subject:   THE SCHEDULER AS A MACHINE. Every step is one acquisition of the domain's lock.

  Threads call the entry points in any order. All of them hold the lock from their first to
  their last access of the state, so an interleaving of calls is a sequence of steps. `admission`
  alone is several steps: it enters, alternates `try_admit` with the allocation of what
  `try_admit` asked for, and leaves. An admission in progress is kept per calling thread
  (`System.admissions`) with the storage it has prepared.

  `heap.reserve` installs what `prepare_growth` allocated: fresh storage of exactly the requested
  size, or nothing (`Op.prepareGrowth thread granted`).
-/
import Bray.Lib.Run
import Bray.Scheduler.Admission
import Bray.Scheduler.Dispatch

namespace Bray.Scheduler

/-- The local variables of `admission` between two steps. -/
structure Admission where
  task : Nat
  lane : Lane
  prepared : Prepared
  request : Option Growth

structure System where
  domain : Domain
  admissions : Nat → Option Admission

/-- One locked step, with its arguments. A registration is the `u64` its caller was given. -/
inductive Op where
  | admission (thread task : Nat) (lane : Lane)
  | tryAdmit (thread : Nat)
  | prepareGrowth (thread : Nat) (granted : Bool)
  | wake (registration : UInt64) (cause now : Nat)
  | withdrawal (registration : UInt64)
  | acquisition (thread lanes : Nat)
  | release (registration : UInt64) (lane : Lane) (cancellation now : Nat)
  | snapshot (registration : UInt64)
  | slotRelease (registration : UInt64)
  | slotAcquisition (registration : UInt64)
  | parkingRegistration
  | parkingWithdrawal (group : Fin 2)
  | notification

/-- What the step hands to its caller: a status word, an observation, a token, or nothing. The
  step of a call that is not in progress does nothing (`idle`). -/
inductive Out where
  | idle
  | status (code : Nat)
  | observed (result : Option Observation)
  | admitted (registration : Nat)
  | pending

/-- The admission `thread` has in progress from here on. -/
def System.setAdmission (s : System) (thread : Nat) (admission : Option Admission) : System :=
  { s with admissions := Function.update s.admissions thread admission }

/-- `try_admit` on behalf of an admission in progress. A token or a refusal ends the admission,
  a growth request keeps it. -/
def System.tryAdmit (s : System) (thread : Nat) : Except Fault (System × Out) :=
  match s.admissions thread with
  | none => .ok (s, .idle)
  | some ⟨_, _, _, some _⟩ => .ok (s, .idle)
  | some ⟨task, lane, prepared, none⟩ => do
    let (state, prepared, result) ← Scheduler.tryAdmit s.domain.state prepared task lane
    let s := { s with domain := { s.domain with state := state } }
    match result with
    | .ok 0 => return (s.setAdmission thread none, .status 2)
    | .ok registration => return (s.setAdmission thread none, .admitted registration)
    | .error required =>
      return (s.setAdmission thread (some ⟨task, lane, prepared, some required⟩), .pending)

/-- `prepare_growth` outside the lock; a failed allocation ends the admission with status 1. -/
def System.prepareGrowth (s : System) (thread : Nat) (granted : Bool) : System × Out :=
  match s.admissions thread with
  | some ⟨task, lane, prepared, some required⟩ =>
    let prepared := Scheduler.prepareGrowth prepared granted required
    if granted then (s.setAdmission thread (some ⟨task, lane, prepared, none⟩), .pending)
    else (s.setAdmission thread none, .status 1)
  | _ => (s, .idle)

/-- **One step of the scheduler.** -/
def step (s : System) : Op → Except Fault (System × Out)
  | .admission thread task lane =>
    match s.admissions thread with
    | some _ => .ok (s, .idle)
    | none =>
      .ok (s.setAdmission thread (some ⟨task, lane, ⟨none, none⟩, none⟩), .pending)
  | .tryAdmit thread => s.tryAdmit thread
  | .prepareGrowth thread granted => .ok (s.prepareGrowth thread granted)
  | .wake registration cause now => do
    let (domain, code) ← wake s.domain registration.toNat cause now
    return ({ s with domain := domain }, .status code)
  | .withdrawal registration => do
    let domain ← withdrawal s.domain registration.toNat
    return ({ s with domain := domain }, .idle)
  | .acquisition thread lanes => do
    let (domain, result) ← acquisition s.domain thread lanes
    return ({ s with domain := domain }, .observed result)
  | .release registration lane cancellation now => do
    let (domain, code) ← release s.domain registration.toNat lane cancellation now
    return ({ s with domain := domain }, .status code)
  | .snapshot registration => do
    let result ← snapshot s.domain registration.toNat
    return (s, match result with | none => .status 2 | some result => .observed (some result))
  | .slotRelease registration => do
    let (domain, code) ← slotRelease s.domain registration.toNat
    return ({ s with domain := domain }, .status code)
  | .slotAcquisition registration => do
    let (domain, code) ← slotAcquisition s.domain registration.toNat
    return ({ s with domain := domain }, .status code)
  | .parkingRegistration =>
    let (domain, group) := parkingRegistration s.domain
    .ok ({ s with domain := domain }, .status group)
  | .parkingWithdrawal group => do
    let domain ← parkingWithdrawal s.domain group
    return ({ s with domain := domain }, .idle)
  | .notification => .ok ({ s with domain := (prepareSignal s.domain).1 }, .idle)

/-- A new scheduler with no call in progress. -/
def System.initial (capabilities main limit : Nat) : System :=
  ⟨Domain.initial capabilities main limit, fun _ => none⟩

/-- **A reachable scheduler**: any sequence of steps from a new domain. -/
def Reached (s : System) : Prop :=
  ∃ capabilities main limit, Lib.Reachable step (System.initial capabilities main limit) s

/-- One admission on a new domain, with the two allocations it asks for. -/
def firstAdmission : List Op :=
  [.admission 0 7 emptyLane, .tryAdmit 0, .prepareGrowth 0 true, .tryAdmit 0, .prepareGrowth 0 true, .tryAdmit 0]

def firstTrace : List (Op × Out) :=
  [(.admission 0 7 emptyLane, .pending), (.tryAdmit 0, .pending), (.prepareGrowth 0 true, .pending),
    (.tryAdmit 0, .pending), (.prepareGrowth 0 true, .pending), (.tryAdmit 0, .admitted 4294967297)]

/-- Its token: generation 1 of entry 1. -/
def firstToken : UInt64 := 4294967297

end Bray.Scheduler
