/-
  File:      Bray/Flow/Height.lean
  Subject:   DOMAINS OF FINITE HEIGHT: on them the solver never exceeds its convergence bound and always
    returns, with the least solution of the flow equations.

  A state has a rank that no state exceeds and that a larger state raises. No state is above its
  equation (`Flowing.below`), so what comes in is never below what the block had: the states of a run
  only rise, and every update that is counted raises the sum of the ranks.

  * **`solveLoop_within`** -- a bound of the height for every block (or of what the counter can hold) is
    never exceeded.
  * **`solveLoop_returns`** -- and the solver returns, whatever the bound is.
  * **`states_le_of_closed`, `along_le_states`, `boundary_le_states`** -- what it returns is below all
    that is closed under the equations, and is closed itself.
  * **`least_solution`** -- the three together.
-/
import Bray.Flow.Solution

namespace Bray.Flow

open Finset

namespace FixedPointDomain

variable {graph : ControlFlowGraph} {State : Type} [SemilatticeSup State]

/-- A rank that rises with the state, up to a height. -/
structure Ranked (rank : State → Nat) (height : Nat) : Prop where
  rises : StrictMono rank
  bounded : ∀ state, rank state ≤ height

def total (rank : State → Nat) (states : Fin graph.blocks → State) : Nat :=
  ∑ block, rank (states block)

variable {rank : State → Nat} {height : Nat}

theorem total_le (ranked : Ranked rank height) (states : Fin graph.blocks → State) :
    total rank states ≤ graph.blocks * height := by
  have each := sum_le_card_nsmul Finset.univ (fun block => rank (states block)) height
    fun block _ => ranked.bounded _
  simpa [total] using each

omit [SemilatticeSup State] in
theorem total_update (states : Fin graph.blocks → State) (block : Fin graph.blocks) (state : State) :
    total rank (Function.update states block state) + rank (states block) = total rank states + rank state := by
  unfold total
  rw [← add_sum_erase _ _ (mem_univ block),
    ← add_sum_erase _ (fun other => rank (states other)) (mem_univ block),
    Function.update_self]
  have others : ∑ other ∈ Finset.univ.erase block, rank (Function.update states block state other) =
    ∑ other ∈ Finset.univ.erase block, rank (states other) := by
    refine sum_congr rfl fun other listed => ?_
    rw [Function.update_of_ne (ne_of_mem_erase listed)]
  omega

/-- A larger state of one block raises the total, and a different one by one at least. -/
theorem total_raise [DecidableEq State] (ranked : Ranked rank height) {states : Fin graph.blocks → State}
    {block : Fin graph.blocks} {state : State} (larger : states block ≤ state) :
    total rank states + (states block != state).toNat ≤ total rank (Function.update states block state) := by
  have moved := @total_update _ _ rank states block state
  by_cases same : states block = state
  · rw [same] at moved
    simp only [same, bne_self_eq_false, Bool.toNat_false]
    omega
  · have strictly : rank (states block) < rank state := ranked.rises (lt_of_le_of_ne larger same)
    have counted : (states block != state).toNat = 1 := by simp [same]
    omega

/-! ## 1. A round -/

/-- How much is left to do: the states can still rise so often and the blocks get a first output, and
each time no more blocks than there are edges are added to those that wait. -/
def remaining (rank : State → Nat) (height : Nat) (machine : Machine graph State) : Nat :=
  (graph.blocks * height - total rank machine.states + untouched machine.outputs) * (graph.edges.length + 1) +
    machine.worklist.length

variable [DecidableEq State] {domain : FixedPointDomain graph State}
  {along : Edge graph.blocks → State → WithBot State} {isCancelled : Nat → Bool}
  {machine next : Machine graph State} {block : Fin graph.blocks} {worklist : List (Nat × Fin graph.blocks)}

omit [DecidableEq State] in
/-- What comes in is not below what the block had. -/
theorem le_incoming (lawful : domain.Lawful along)
  (flowing : domain.Flowing along { machine with worklist := worklist }) {ticks ticks' : Nat}
  {incoming : State}
  (arrived : domain.incomingState isCancelled block machine.outputs (machine.states block) ticks =
    some (ticks', incoming)) : machine.states block ≤ incoming := by
  refine WithBot.coe_le_coe.mp ?_
  rw [incomingState_eq lawful (flowing.below block) arrived]
  exact flowing.below block

/-- A round counts no update that does not raise the total, and leaves less to do but for the block that
it took. -/
theorem round_ranked (lawful : domain.Lawful along) (ranked : Ranked rank height)
  (flowing : domain.Flowing along { machine with worklist := worklist })
  (counted : machine.updates ≤ total rank machine.states)
  (run : domain.round isCancelled machine block = .complete next) :
  next.updates ≤ total rank next.states ∧ remaining rank height next ≤ remaining rank height machine := by
  unfold round at run
  split at run
  · cases run
  split at run
  · cases run
  next ticks incoming arrived =>
  have raised := total_raise ranked (le_incoming lawful flowing arrived)
  have ceiling := total_le ranked (Function.update machine.states block incoming)
  dsimp only at run
  split at run
  · cases run
    exact ⟨counted, le_rfl⟩
  next changing =>
  split at run
  · cases run
    refine ⟨by dsimp only; omega, ?_⟩
    have fewer : graph.blocks * height - total rank (Function.update machine.states block incoming) ≤
      graph.blocks * height - total rank machine.states := by omega
    have scaled := Nat.mul_le_mul_right (graph.edges.length + 1)
      (Nat.add_le_add_right fewer (untouched machine.outputs))
    simp only [remaining]
    omega
  split at run
  · cases run
  cases run
  refine ⟨by dsimp only; omega, ?_⟩
  have added := Nat.le_trans (domain.length_enqueueAll_le _ machine.worklist)
    (Nat.add_le_add_left (domain.length_targets_le block) _)
  have fewer := untouched_update_le machine.outputs block (domain.transfer block incoming)
  -- The state rose, or this is the block's first output.
  have spent : graph.blocks * height - total rank (Function.update machine.states block incoming) +
    untouched (Function.update machine.outputs block (some (domain.transfer block incoming))) + 1 ≤
    graph.blocks * height - total rank machine.states + untouched machine.outputs := by
    by_cases changed : machine.states block = incoming
    · have first : machine.outputs block = none := by
        simpa [changed] using changing
      have strictly := untouched_update_lt machine.outputs block (domain.transfer block incoming) first
      omega
    · have one : (machine.states block != incoming).toNat = 1 := by simp [changed]
      omega
  have scaled := Nat.mul_le_mul_right (graph.edges.length + 1) spent
  simp only [remaining]
  rw [Nat.add_mul, Nat.one_mul] at scaled
  omega

/-- A round does not exceed a bound of the height for every block, or of what the counter can hold. -/
theorem round_within (lawful : domain.Lawful along) (ranked : Ranked rank height)
    (room : min (graph.blocks * height) usizeMax ≤ domain.convergenceBound)
  (flowing : domain.Flowing along { machine with worklist := worklist })
  (counted : machine.updates ≤ total rank machine.states) :
  domain.round isCancelled machine block ≠ .convergenceInvariantViolated := by
  intro run
  unfold round at run
  split at run
  · cases run
  split at run
  · cases run
  next ticks incoming arrived =>
  have raised := total_raise ranked (le_incoming lawful flowing arrived)
  have ceiling := total_le ranked (Function.update machine.states block incoming)
  dsimp only at run
  split at run
  · cases run
  split at run
  · cases run
  split at run
  · next exceeded => omega
  · cases run

/-! ## 2. Runs -/

omit [SemilatticeSup State] [DecidableEq State] in
/-- The block of the first entry waits. -/
theorem popped_first {priority : Nat} {rest : List (Nat × Fin graph.blocks)}
    (split : machine.worklist = (priority, block) :: rest) (other : Fin graph.blocks) :
    Pending other machine.worklist ↔ other = block ∨
      Pending other ({ machine with worklist := rest } : Machine graph State).worklist := by
  rw [split]
  exact pending_cons _ _ _

section

variable (lawful : domain.Lawful along) (ranked : Ranked rank height)
include lawful ranked

/-- **No run exceeds the bound.** -/
theorem solveLoop_within (room : min (graph.blocks * height) usizeMax ≤ domain.convergenceBound) :
    ∀ {fuel : Nat} {machine : Machine graph State}, domain.Flowing along machine →
      machine.updates ≤ total rank machine.states →
      domain.solveLoop isCancelled fuel machine ≠ some .convergenceInvariantViolated := by
  intro fuel
  induction fuel with
  | zero =>
    intro machine _ _ run
    cases run
  | succ fuel ih =>
    intro machine flowing counted run
    unfold solveLoop at run
    split at run
    · cases run
    next priority block rest split =>
    have before : domain.Flowing along
      { ({ machine with worklist := rest } : Machine graph State) with worklist := machine.worklist } := flowing
    split at run
    · next next stepped =>
      exact ih (round_flowing lawful before (popped_first split) stepped)
        (round_ranked lawful ranked before counted stepped).1 run
    · cases run
    · next violated => exact round_within lawful ranked room before counted violated

/-- **Every run returns.** -/
theorem solveLoop_returns : ∀ {fuel : Nat} {machine : Machine graph State}, domain.Flowing along machine →
      machine.updates ≤ total rank machine.states → remaining rank height machine < fuel →
      (domain.solveLoop isCancelled fuel machine).isSome := by
  intro fuel
  induction fuel with
  | zero =>
    intro machine _ _ enough
    omega
  | succ fuel ih =>
    intro machine flowing counted enough
    unfold solveLoop
    split
    · rfl
    next priority block rest split =>
    have before : domain.Flowing along
      { ({ machine with worklist := rest } : Machine graph State) with worklist := machine.worklist } := flowing
    split
    · next next stepped =>
      obtain ⟨counted, lower⟩ := round_ranked lawful ranked before counted stepped
      refine ih (round_flowing lawful before (popped_first split) stepped) counted ?_
      simp only [remaining, split, List.length_cons] at lower enough ⊢
      omega
    · rfl
    · rfl

/-- The solver with a bound of the height for every block returns, without exceeding it. -/
theorem solveFixedPoint_returns
    (room : min (graph.blocks * height) usizeMax ≤ domain.convergenceBound) (isCancelled : Nat → Bool) :
    (∀ fuel, domain.solveFixedPoint isCancelled fuel ≠ some .convergenceInvariantViolated) ∧
      ∃ enough, ∀ fuel, enough < fuel → (domain.solveFixedPoint isCancelled fuel).isSome := by
  constructor
  · intro fuel run
    obtain ⟨outcome, loop, mapped⟩ := Option.map_eq_some_iff.mp run
    cases outcome with
    | complete last | cancelled => cases mapped
    | convergenceInvariantViolated =>
      exact solveLoop_within lawful ranked room start_flowing (Nat.zero_le _) loop
  · refine ⟨remaining rank height domain.start, fun fuel enough => ?_⟩
    rw [solveFixedPoint, Option.isSome_map]
    exact solveLoop_returns lawful ranked start_flowing (Nat.zero_le _) enough

end

omit [SemilatticeSup State] [DecidableEq State] in
/-- Only a request that was withdrawn ends a run as cancelled. -/
theorem joinIncoming_none {outputs : Fin graph.blocks → Option State} :
    ∀ {edges : List (Edge graph.blocks)} {ticks : Nat} {cyclic : Bool} {incoming : State},
      domain.joinIncoming isCancelled outputs edges ticks cyclic incoming = none →
      ∃ tick, isCancelled tick = true := by
  intro edges
  induction edges with
  | nil =>
    intro ticks cyclic incoming run
    cases run
  | cons edge rest ih =>
    intro ticks cyclic incoming run
    simp only [joinIncoming] at run
    split at run
    · next withdrawn => exact ⟨ticks, withdrawn⟩
    split at run
    · exact ih run
    · exact ih run

omit [SemilatticeSup State] in
theorem round_cancelled (run : domain.round isCancelled machine block = .cancelled) :
    ∃ tick, isCancelled tick = true := by
  unfold round at run
  split at run
  · next withdrawn => exact ⟨_, withdrawn⟩
  split at run
  · next stopped =>
    rcases Option.bind_eq_none_iff.mp stopped with stopped
    cases joined : domain.joinIncoming isCancelled machine.outputs
      (graph.traversalEdges block domain.direction.reverse) (machine.ticks + 1) false
      (if domain.isBoundary block then domain.merge none (domain.initial block) domain.boundary
        else domain.initial block) with
    | none => exact joinIncoming_none joined
    | some found => exact absurd (stopped found joined) nofun
  dsimp only at run
  split at run
  · cases run
  split at run
  · cases run
  split at run
  · cases run
  · cases run

omit [SemilatticeSup State] in
theorem solveLoop_cancelled : ∀ {fuel : Nat} {machine : Machine graph State},
    domain.solveLoop isCancelled fuel machine = some .cancelled → ∃ tick, isCancelled tick = true := by
  intro fuel
  induction fuel with
  | zero =>
    intro machine run
    cases run
  | succ fuel ih =>
    intro machine run
    unfold solveLoop at run
    split at run
    · cases run
    split at run
    · exact ih run
    · next stopped => exact round_cancelled stopped
    · cases run

/-! ## 3. The least solution -/

/-- A state for every block that the equations do not lead out of. -/
def Closed (domain : FixedPointDomain graph State) (along : Edge graph.blocks → State → WithBot State)
  (limit : Fin graph.blocks → State) : Prop :=
  ∀ block, domain.inflow along (fun source => some (domain.transfer source (limit source))) block ≤ limit block

variable {limit : Fin graph.blocks → State}

theorem round_closed (lawful : domain.Lawful along) (closed : domain.Closed along limit)
  (flowing : domain.Flowing along { machine with worklist := worklist })
  (below : ∀ other, machine.states other ≤ limit other)
  (run : domain.round isCancelled machine block = .complete next) :
  ∀ other, next.states other ≤ limit other := by
  obtain ⟨-, ticks, incoming, arrived, cases⟩ := round_cases run
  have within : incoming ≤ limit block := by
    refine WithBot.coe_le_coe.mp ?_
    rw [incomingState_eq lawful (flowing.below block) arrived]
    refine le_trans (inflow_mono lawful (fun source old found => ⟨_, rfl, ?_⟩) block) (closed block)
    rw [flowing.transferred source old found]
    exact lawful.transfer_mono source (below source)
  have updated : ∀ other, Function.update machine.states block incoming other ≤ limit other := by
    intro other
    by_cases same : other = block
    · subst same
      rwa [Function.update_self]
    · rw [Function.update_of_ne same]
      exact below other
  rcases cases with ⟨-, -, rfl⟩ | ⟨-, rfl⟩ | ⟨updates, -, rfl⟩
  · exact below
  · exact updated
  · exact updated

theorem solveLoop_closed (lawful : domain.Lawful along) (closed : domain.Closed along limit) :
    ∀ {fuel : Nat} {machine last : Machine graph State}, domain.Flowing along machine →
      (∀ other, machine.states other ≤ limit other) →
      domain.solveLoop isCancelled fuel machine = some (.complete last) →
      ∀ other, last.states other ≤ limit other := by
  intro fuel
  induction fuel with
  | zero =>
    intro machine last _ _ run
    cases run
  | succ fuel ih =>
    intro machine last flowing below run
    unfold solveLoop at run
    split at run
    · cases run
      exact below
    next priority block rest split =>
    have before : domain.Flowing along
      { ({ machine with worklist := rest } : Machine graph State) with worklist := machine.worklist } := flowing
    split at run
    · next next stepped =>
      exact ih (round_flowing lawful before (popped_first split) stepped)
        (round_closed lawful closed before below stepped) run
    · cases run
    · cases run

variable {fuel : Nat} {states : Fin graph.blocks → State}

omit [SemilatticeSup State] in
theorem loop_of_complete (run : domain.solveFixedPoint isCancelled fuel = some (.complete states)) :
    ∃ last, domain.solveLoop isCancelled fuel domain.start = some (.complete last) ∧ last.states = states := by
  obtain ⟨outcome, loop, mapped⟩ := Option.map_eq_some_iff.mp run
  cases outcome with
  | cancelled | convergenceInvariantViolated => cases mapped
  | complete last => exact ⟨last, loop, FixedPointOutcome.complete.inj mapped⟩

/-- The equations that the states of a complete run solve. -/
theorem equations (lawful : domain.Lawful along)
    (run : domain.solveFixedPoint isCancelled fuel = some (.complete states)) :
    ∃ outputs, ∀ block, domain.Reached block → outputs block = some (domain.transfer block (states block)) ∧
      (states block : WithBot State) = domain.inflow along outputs block := by
  obtain ⟨last, loop, rfl⟩ := loop_of_complete run
  obtain ⟨flowing, empty⟩ := solveLoop_flowing lawful start_flowing loop
  refine ⟨last.outputs, fun block reached => ?_⟩
  have found := flowing.isSome_of_reached empty reached
  obtain ⟨output, output_eq⟩ := Option.isSome_iff_exists.mp found
  refine ⟨by rw [output_eq, flowing.transferred block output output_eq], flowing.current block found ?_⟩
  rintro ⟨_, listed⟩
  rw [empty] at listed
  cases listed

/-- What a complete run returns is below all that is closed. -/
theorem states_le_of_closed (lawful : domain.Lawful along) (closed : domain.Closed along limit)
    (run : domain.solveFixedPoint isCancelled fuel = some (.complete states)) (block : Fin graph.blocks) :
    states block ≤ limit block := by
  obtain ⟨last, loop, rfl⟩ := loop_of_complete run
  refine solveLoop_closed lawful closed start_flowing (fun other => ?_) loop block
  exact WithBot.coe_le_coe.mp (le_trans (le_sup_of_le_left le_sup_left) (closed other))

section

variable (lawful : domain.Lawful along) (run : domain.solveFixedPoint isCancelled fuel = some (.complete states))
include lawful run

/-- What an edge carries out of a reached block has arrived. -/
theorem along_le_states {edge : Edge graph.blocks} (listed : edge ∈ graph.edges)
    (reached : domain.Reached (edge.traversalTarget domain.direction.reverse)) :
    along edge (domain.transfer (edge.traversalTarget domain.direction.reverse)
      (states (edge.traversalTarget domain.direction.reverse))) ≤
      states (edge.traversalTarget domain.direction) := by
  obtain ⟨outputs, solution⟩ := equations lawful run
  rw [(solution _ (.step listed reached)).2]
  have contributed : domain.contribution along outputs edge =
    along edge (domain.transfer (edge.traversalTarget domain.direction.reverse)
    (states (edge.traversalTarget domain.direction.reverse))) := by
    rw [contribution, (solution _ reached).1, Option.elim_some]
  rw [← contributed]
  refine le_sup_of_le_right (le_sup (List.mem_toFinset.mpr ?_))
  exact (graph.mem_traversalEdges _ _ _).mpr ⟨listed, by rw [reverse_reverse]⟩

theorem boundary_le_states {block : Fin graph.blocks}
    (boundary : domain.isBoundary block = true) : domain.boundary ≤ states block := by
  obtain ⟨outputs, solution⟩ := equations lawful run
  refine WithBot.coe_le_coe.mp ?_
  rw [(solution block (.start (by rw [boundary, Bool.true_or]))).2]
  refine le_sup_of_le_left (le_sup_of_le_right ?_)
  rw [if_pos boundary]

end

/-- **The solver finds the least solution.** On a domain of finite height, with a bound for all its rises,
a solver that is not cancelled completes; the states solve the flow equations, and they are below every
choice of states that the equations do not lead out of. -/
theorem least_solution (lawful : domain.Lawful along) (ranked : Ranked rank height)
    (room : min (graph.blocks * height) usizeMax ≤ domain.convergenceBound)
    (quiet : ∀ tick, isCancelled tick = false) : ∃ enough, ∀ fuel, enough < fuel →
      ∃ states, domain.solveFixedPoint isCancelled fuel = some (.complete states) ∧
        (∃ outputs, ∀ block, domain.Reached block → outputs block = some (domain.transfer block (states block)) ∧
          (states block : WithBot State) = domain.inflow along outputs block) ∧
        ∀ limit, domain.Closed along limit → ∀ block, states block ≤ limit block := by
  obtain ⟨within, enough, returns⟩ := solveFixedPoint_returns lawful ranked room isCancelled
  refine ⟨enough, fun fuel more => ?_⟩
  obtain ⟨outcome, run⟩ := Option.isSome_iff_exists.mp (returns fuel more)
  cases outcome with
  | complete states =>
    exact ⟨states, run, equations lawful run, fun limit closed => states_le_of_closed lawful closed run⟩
  | convergenceInvariantViolated => exact absurd run (within fuel)
  | cancelled =>
    obtain ⟨last, loop, stopped⟩ := Option.map_eq_some_iff.mp run
    cases last with
    | complete machine | convergenceInvariantViolated => cases stopped
    | cancelled =>
      obtain ⟨tick, asked⟩ := solveLoop_cancelled loop
      rw [quiet] at asked
      cases asked

/-- Nothing is written at the entry of the loop. -/
theorem least_solution_loop : ∃ fuel states,
    mayBeWritten.solveFixedPoint (fun _ => false) fuel = some (.complete states) ∧
      states (0 : Fin 4) ≤ false := by
  have ranked : Ranked Bool.toNat 1 := ⟨by intro x y; cases x <;> cases y <;> decide, Bool.toNat_le⟩
  obtain ⟨enough, solved⟩ := least_solution mayBeWritten_lawful ranked (by decide) fun _ => rfl
  obtain ⟨states, run, -, least⟩ := solved (enough + 1) (Nat.lt_succ_self enough)
  have closed : mayBeWritten.Closed (fun _ state => (state : WithBot Bool)) ![false, true, true, true] := by
    unfold Closed inflow given contribution
    decide +kernel
  exact ⟨_, states, run, least _ closed (0 : Fin 4)⟩

end FixedPointDomain

end Bray.Flow
