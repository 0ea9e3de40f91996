/-
  File:      Bray/Scheduler/Parking.lean
  Subject:   THE SIGNAL WORDS (scheduler/parking.bray). Waiters register in one of two groups; a
    queue transition raises the word of every group that has a waiter.
-/
import Bray.Scheduler.Data

namespace Bray.Scheduler

local instance twoGroups : NeZero 2 := ⟨by decide⟩

/-- `prepare_signal`: raises the signal of every group with a waiter whose word is still down.
  The second component is the set of groups to notify. -/
def prepareSignal (value : Domain) : Domain × Nat :=
  let raised (group : Fin 2) : Bool := value.state.waiters group != 0 && value.signals group == 0
  ({ value with signals := fun group => if raised group then 1 else value.signals group },
    (if raised 0 then 1 else 0) ||| (if raised 1 then 2 else 0))

/-- `parking_registration`: the first group whose word is down, 2 when both are up. -/
def parkingRegistration (value : Domain) : Domain × Nat :=
  let join (group : Fin 2) : Domain :=
    { value with state := { value.state with
      waiters := fun other =>
        if other = group then value.state.waiters group + 1 else value.state.waiters other } }
  if value.signals 0 = 0 then (join 0, 0)
  else if value.signals 1 = 0 then (join 1, 1)
  else (value, 2)

/-- `parking_withdrawal` of a registered group: the last waiter takes the group's word down. -/
def parkingWithdrawal (value : Domain) (group : Fin 2) : Except Fault Domain :=
  if value.state.waiters group = 0 then .error .parkingUnbalanced
  else
    let left := value.state.waiters group - 1
    .ok { value with
      state := { value.state with
        waiters := fun other => if other = group then left else value.state.waiters other }
      signals := fun other => if other = group ∧ left = 0 then 0 else value.signals other }

/-- The state under the lock does not depend on the signal words. -/
@[simp] theorem prepareSignal_state (value : Domain) : (prepareSignal value).1.state = value.state :=
  rfl

end Bray.Scheduler
