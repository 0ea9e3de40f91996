/-
  File:      Bray/Flow/Solution.lean
  Subject:   SOLUTIONS: a completed run of the fixed-point solver has found a solution of the flow
    equations.

  A domain is LAWFUL when merging is the join of a semilattice, carrying a state over an edge joins
  something monotone in it (or nothing) to the target, and transferring over a block is monotone. The
  equation of a block (`inflow`) joins its initial state, the boundary state where it applies and what
  the outputs of its predecessors contribute over its incoming edges.

  **The invariant** `Flowing`: every output is the transfer of its block's state; no state is above its
  equation; a block that does not wait satisfies its equation, or has no output and nothing comes in.
  That no state is above its equation is what makes the retained approximation of a loop header harmless.
-/
import Bray.Flow.FixedPoint

namespace Bray.Flow

open List Function


namespace FixedPointDomain

variable {graph : ControlFlowGraph} {State : Type}

/-! ## 1. Lawful domains and their equations -/

/-- The laws of a domain. `along edge state` is what the edge carries of the state; `⊥`: nothing. -/
structure Lawful [SemilatticeSup State] (domain : FixedPointDomain graph State)
  (along : Edge graph.blocks → State → WithBot State) : Prop where
  merge_eq : ∀ block target source, domain.merge block target source = target ⊔ source
  propagate_eq : ∀ source edge target,
    (domain.propagate source edge target : WithBot State) = (target : WithBot State) ⊔ along edge source
  transfer_mono : ∀ block, Monotone (domain.transfer block)
  along_mono : ∀ edge, Monotone (along edge)

/-- A block is reached when it is a boundary block, is seeded, or follows a reached block. -/
inductive Reached (domain : FixedPointDomain graph State) : Fin graph.blocks → Prop where
  | start {block : Fin graph.blocks} (starts : domain.isBoundary block || domain.shouldSeed block) :
    Reached domain block
  | step {edge : Edge graph.blocks} (listed : edge ∈ graph.edges)
    (reached : Reached domain (edge.traversalTarget domain.direction.reverse)) :
    Reached domain (edge.traversalTarget domain.direction)

theorem reverse_reverse (direction : FlowDirection) : direction.reverse.reverse = direction := by
  cases direction <;> rfl

section Equation

variable [SemilatticeSup State] (domain : FixedPointDomain graph State)
  (along : Edge graph.blocks → State → WithBot State)

/-- What an edge contributes when the blocks have the given outputs. -/
def contribution (outputs : Fin graph.blocks → Option State) (edge : Edge graph.blocks) : WithBot State :=
  (outputs (edge.traversalTarget domain.direction.reverse)).elim ⊥ (along edge)

/-- What a block starts from before its predecessors are asked. -/
def given (block : Fin graph.blocks) : WithBot State :=
  domain.initial block ⊔ if domain.isBoundary block then (domain.boundary : WithBot State) else ⊥

/-- The right-hand side of the equation of a block. -/
def inflow (outputs : Fin graph.blocks → Option State) (block : Fin graph.blocks) : WithBot State :=
  domain.given block ⊔
    (graph.traversalEdges block domain.direction.reverse).toFinset.sup (domain.contribution along outputs)

variable {domain along}

/-- A larger output of every block gives a larger inflow of every block. -/
theorem inflow_mono {outputs outputs' : Fin graph.blocks → Option State} (lawful : domain.Lawful along)
    (grows : ∀ block old, outputs block = some old → ∃ new, outputs' block = some new ∧ old ≤ new)
    (block : Fin graph.blocks) : domain.inflow along outputs block ≤ domain.inflow along outputs' block := by
  refine sup_le_sup_left (Finset.sup_mono_fun ?_) _
  intro edge _
  unfold contribution
  cases old : outputs (edge.traversalTarget domain.direction.reverse) with
  | none => exact bot_le
  | some state =>
    obtain ⟨new, found, larger⟩ := grows _ _ old
    rw [found]
    exact lawful.along_mono edge larger

/-- The inflow reads the outputs of the blocks that the incoming edges come from. -/
theorem inflow_congr {outputs outputs' : Fin graph.blocks → Option State} {block : Fin graph.blocks}
    (same : ∀ edge ∈ graph.edges, edge.traversalTarget domain.direction = block →
      outputs (edge.traversalTarget domain.direction.reverse) =
        outputs' (edge.traversalTarget domain.direction.reverse)) :
    domain.inflow along outputs block = domain.inflow along outputs' block := by
  unfold inflow
  congr 1
  refine Finset.sup_congr rfl ?_
  intro edge listed
  obtain ⟨listed, target⟩ := (graph.mem_traversalEdges _ _ _).mp (mem_toFinset.mp listed)
  unfold contribution
  rw [reverse_reverse] at target
  rw [same edge listed target]

end Equation

/-! ## 2. What comes in -/

section Incoming

variable {domain : FixedPointDomain graph State} {isCancelled : Nat → Bool}
  {outputs : Fin graph.blocks → Option State}

/-- No answer was "cancelled" while a completed loop ran. -/
theorem joinIncoming_uncancelled :
    ∀ {edges : List (Edge graph.blocks)} {ticks ticks' : Nat} {cyclic cyclic' : Bool} {incoming joined : State},
      domain.joinIncoming isCancelled outputs edges ticks cyclic incoming = some (ticks', cyclic', joined) →
      ∀ tick, ticks ≤ tick → tick < ticks' → isCancelled tick = false := by
  intro edges
  induction edges with
  | nil =>
    intro ticks ticks' cyclic cyclic' incoming joined run tick lower upper
    simp only [joinIncoming, Option.some.injEq, Prod.mk.injEq] at run
    omega
  | cons edge rest ih =>
    intro ticks ticks' cyclic cyclic' incoming joined run tick lower upper
    simp only [joinIncoming] at run
    split at run
    · cases run
    · next quiet =>
      rcases Nat.eq_or_lt_of_le lower with same | later
      · rw [← same]
        simpa using quiet
      · split at run
        · exact ih run tick later upper
        · exact ih run tick later upper

theorem incomingState_uncancelled {block : Fin graph.blocks} {previous incoming : State} {ticks ticks' : Nat}
    (run : domain.incomingState isCancelled block outputs previous ticks = some (ticks', incoming)) :
    ∀ tick, ticks ≤ tick → tick < ticks' → isCancelled tick = false := by
  obtain ⟨⟨asked, cyclic, joined⟩, loop, rest⟩ := Option.bind_eq_some_iff.mp run
  simp only [Option.pure_def, Option.some.injEq, Prod.mk.injEq] at rest
  rw [← rest.1]
  exact joinIncoming_uncancelled loop

variable [SemilatticeSup State] {along : Edge graph.blocks → State → WithBot State}

theorem joinIncoming_eq (lawful : domain.Lawful along) :
    ∀ {edges : List (Edge graph.blocks)} {ticks ticks' : Nat} {cyclic cyclic' : Bool} {incoming joined : State},
      domain.joinIncoming isCancelled outputs edges ticks cyclic incoming = some (ticks', cyclic', joined) →
      (joined : WithBot State) =
        (incoming : WithBot State) ⊔ edges.toFinset.sup (domain.contribution along outputs) := by
  intro edges
  induction edges with
  | nil =>
    intro ticks ticks' cyclic cyclic' incoming joined run
    simp only [joinIncoming, Option.some.injEq, Prod.mk.injEq] at run
    simp [run.2.2]
  | cons edge rest ih =>
    intro ticks ticks' cyclic cyclic' incoming joined run
    simp only [joinIncoming] at run
    split at run
    · cases run
    rw [toFinset_cons, Finset.sup_insert, contribution]
    cases found : outputs (edge.traversalTarget domain.direction.reverse) with
    | none =>
      rw [found] at run
      rw [ih run, Option.elim_none, bot_sup_eq]
    | some output =>
      rw [found] at run
      rw [ih run, lawful.propagate_eq, Option.elim_some, sup_assoc]

/-- What comes in is the inflow, joined with the previous state at a loop header. -/
theorem incomingState_eq (lawful : domain.Lawful along) {block : Fin graph.blocks} {previous incoming : State}
    {ticks ticks' : Nat} (below : (previous : WithBot State) ≤ domain.inflow along outputs block)
    (run : domain.incomingState isCancelled block outputs previous ticks = some (ticks', incoming)) :
    (incoming : WithBot State) = domain.inflow along outputs block := by
  obtain ⟨⟨asked, cyclic, joined⟩, loop, rest⟩ := Option.bind_eq_some_iff.mp run
  have first : ((if domain.isBoundary block then domain.merge none (domain.initial block) domain.boundary
    else domain.initial block : State) : WithBot State) = domain.given block := by
    unfold given
    split
    · rw [lawful.merge_eq, WithBot.coe_sup]
    · rw [sup_bot_eq]
  have joined_eq : (joined : WithBot State) = domain.inflow along outputs block := by
    rw [joinIncoming_eq lawful loop, first]
    rfl
  simp only [Option.pure_def, Option.some.injEq, Prod.mk.injEq] at rest
  rw [← rest.2]
  split
  · rw [lawful.merge_eq, WithBot.coe_sup, joined_eq]
    exact sup_eq_left.mpr below
  · exact joined_eq

end Incoming

/-! ## 3. Invariant -/

/-- The invariant of the loop. -/
structure Flowing [SemilatticeSup State] (domain : FixedPointDomain graph State)
  (along : Edge graph.blocks → State → WithBot State) (machine : Machine graph State) : Prop where
  transferred : ∀ block output, machine.outputs block = some output →
    output = domain.transfer block (machine.states block)
  below : ∀ block, (machine.states block : WithBot State) ≤ domain.inflow along machine.outputs block
  current : ∀ block, (machine.outputs block).isSome → ¬ Pending block machine.worklist →
    (machine.states block : WithBot State) = domain.inflow along machine.outputs block
  started : ∀ block, domain.isBoundary block || domain.shouldSeed block →
    (machine.outputs block).isSome ∨ Pending block machine.worklist
  followed : ∀ edge ∈ graph.edges, (machine.outputs (edge.traversalTarget domain.direction.reverse)).isSome →
    (machine.outputs (edge.traversalTarget domain.direction)).isSome ∨
      Pending (edge.traversalTarget domain.direction) machine.worklist
  reached : ∀ block, (machine.outputs block).isSome ∨ Pending block machine.worklist → domain.Reached block

section Rounds

theorem mem_targets {domain : FixedPointDomain graph State} {block : Fin graph.blocks} (other : Fin graph.blocks) :
    other ∈ (graph.traversalEdges block domain.direction).map (fun edge => edge.traversalTarget domain.direction) ↔
      ∃ edge ∈ graph.edges, edge.traversalTarget domain.direction.reverse = block ∧
        edge.traversalTarget domain.direction = other := by
  simp [mem_map, graph.mem_traversalEdges, and_assoc]

variable [SemilatticeSup State] {domain : FixedPointDomain graph State}
  {along : Edge graph.blocks → State → WithBot State}

theorem start_flowing : domain.Flowing along domain.start where
  transferred := by
    intro block output found
    cases found
  below := fun block => le_sup_of_le_left le_sup_left
  current := by
    intro block found
    cases found
  started := by
    intro block starts
    exact .inr ((domain.pending_enqueueAll _ _ _).mpr (.inl (by simpa using starts)))
  followed := by
    intro edge _ found
    cases found
  reached := by
    intro block cases
    rcases cases with found | pending
    · cases found
    · rcases (domain.pending_enqueueAll _ _ _).mp pending with listed | ⟨_, listed⟩
      · exact .start (by simpa using listed)
      · cases listed

variable {machine : Machine graph State} {block : Fin graph.blocks} {worklist : List (Nat × Fin graph.blocks)}
  {incoming : State}

/-- A round that leaves the outputs alone: the block now satisfies its equation. -/
theorem flowing_of_kept (flowing : domain.Flowing along { machine with worklist := worklist })
  (popped : ∀ other, Pending other worklist ↔ other = block ∨ Pending other machine.worklist)
  (solved : (incoming : WithBot State) = domain.inflow along machine.outputs block)
  (kept : machine.outputs block = some (domain.transfer block incoming)) (ticks : Nat) :
  domain.Flowing along
    { machine with states := Function.update machine.states block incoming, ticks := ticks } where
  transferred := by
    intro other output found
    by_cases same : other = block
    · subst same
      simp only [update_self]
      exact Option.some.inj (found.symm.trans kept)
    · simp only [update_of_ne same]
      exact flowing.transferred other output found
  below := by
    intro other
    by_cases same : other = block
    · subst same
      simp only [update_self]
      exact solved.le
    · simp only [update_of_ne same]
      exact flowing.below other
  current := by
    intro other found idle
    by_cases same : other = block
    · subst same
      simp only [update_self]
      exact solved
    · simp only [update_of_ne same]
      refine flowing.current other found fun pending => ?_
      exact ((popped other).mp pending).elim same idle
  started := by
    intro other starts
    rcases flowing.started other starts with found | pending
    · exact .inl found
    rcases (popped other).mp pending with same | pending
    · exact .inl (by rw [same, kept]; rfl)
    · exact .inr pending
  followed := by
    intro edge listed found
    rcases flowing.followed edge listed found with found | pending
    · exact .inl found
    rcases (popped _).mp pending with same | pending
    · exact .inl (by rw [same, kept]; rfl)
    · exact .inr pending
  reached := by
    intro other cases
    exact flowing.reached other (cases.imp_right fun pending => (popped other).mpr (.inr pending))

/-- A round that replaces the output of the block: the blocks that follow wait. -/
theorem flowing_of_replaced (lawful : domain.Lawful along)
  (flowing : domain.Flowing along { machine with worklist := worklist })
  (popped : ∀ other, Pending other worklist ↔ other = block ∨ Pending other machine.worklist)
  (solved : (incoming : WithBot State) = domain.inflow along machine.outputs block) (updates ticks : Nat) :
  domain.Flowing along
    { states := Function.update machine.states block incoming
      outputs := Function.update machine.outputs block (some (domain.transfer block incoming))
      worklist := domain.enqueueAll ((graph.traversalEdges block domain.direction).map
        fun edge => edge.traversalTarget domain.direction) machine.worklist
      updates := updates
      ticks := ticks } := by
  have grows : ∀ other old, machine.outputs other = some old →
    ∃ new, Function.update machine.outputs block (some (domain.transfer block incoming)) other = some new ∧
      old ≤ new := by
    intro other old found
    by_cases same : other = block
    · subst same
      refine ⟨_, update_self _ _ _, ?_⟩
      rw [flowing.transferred other old found]
      refine lawful.transfer_mono other (WithBot.coe_le_coe.mp ?_)
      rw [solved]
      exact flowing.below other
    · exact ⟨old, by rwa [update_of_ne same], le_rfl⟩
  have present : ∀ other, other = block →
    (Function.update machine.outputs block (some (domain.transfer block incoming)) other).isSome := by
    intro other same
    rw [same, update_self]
    rfl
  have preserved : ∀ other, (machine.outputs other).isSome →
    (Function.update machine.outputs block (some (domain.transfer block incoming)) other).isSome := by
    intro other found
    obtain ⟨old, found⟩ := Option.isSome_iff_exists.mp found
    obtain ⟨new, found, _⟩ := grows other old found
    rw [found]
    rfl
  -- What had an output or waited before the round still does.
  have awaited : ∀ other, (machine.outputs other).isSome ∨ Pending other worklist →
    (Function.update machine.outputs block (some (domain.transfer block incoming)) other).isSome ∨
      Pending other (domain.enqueueAll ((graph.traversalEdges block domain.direction).map
        fun edge => edge.traversalTarget domain.direction) machine.worklist) := by
    intro other cases
    rcases cases with found | pending
    · exact .inl (preserved other found)
    rcases (popped other).mp pending with same | pending
    · exact .inl (present other same)
    · exact .inr ((domain.pending_enqueueAll _ _ _).mpr (.inr pending))
  refine ⟨?_, ?_, ?_, ?_, ?_, ?_⟩
  · intro other output found
    by_cases same : other = block
    · subst same
      simp only [update_self, Option.some.injEq] at found ⊢
      exact found.symm
    · simp only [update_of_ne same] at found ⊢
      exact flowing.transferred other output found
  · intro other
    refine le_trans ?_ (inflow_mono lawful grows other)
    by_cases same : other = block
    · subst same
      simp only [update_self]
      exact solved.le
    · simp only [update_of_ne same]
      exact flowing.below other
  · intro other found idle
    rw [domain.pending_enqueueAll, mem_targets] at idle
    have unread : domain.inflow along machine.outputs other = domain.inflow along
      (Function.update machine.outputs block (some (domain.transfer block incoming))) other := by
      refine inflow_congr fun edge listed target => ?_
      rw [update_of_ne fun source => idle (.inl ⟨edge, listed, source, target⟩)]
    rw [← unread]
    by_cases same : other = block
    · subst same
      simp only [update_self]
      exact solved
    · simp only [update_of_ne same] at found ⊢
      refine flowing.current other found fun pending => ?_
      exact ((popped other).mp pending).elim same fun pending => idle (.inr pending)
  · intro other starts
    exact awaited other (flowing.started other starts)
  · intro edge listed found
    by_cases same : edge.traversalTarget domain.direction.reverse = block
    · exact .inr ((domain.pending_enqueueAll _ _ _).mpr (.inl ((mem_targets _).mpr ⟨edge, listed, same, rfl⟩)))
    · simp only [update_of_ne same] at found
      exact awaited _ (flowing.followed edge listed found)
  · have before : domain.Reached block := flowing.reached block (.inr ((popped block).mpr (.inl rfl)))
    intro other cases
    rcases cases with found | pending
    · by_cases same : other = block
      · rwa [same]
      · simp only [update_of_ne same] at found
        exact flowing.reached other (.inl found)
    rcases (domain.pending_enqueueAll _ _ _).mp pending with listed | pending
    · obtain ⟨edge, listed, source, target⟩ := (mem_targets other).mp listed
      rw [← target]
      exact .step listed (by rwa [source])
    · exact flowing.reached other (.inr ((popped other).mpr (.inr pending)))

variable [DecidableEq State] {isCancelled : Nat → Bool} {next : Machine graph State}

omit [SemilatticeSup State] in
/-- Every way a round goes on: it asked, and was not cancelled; then nothing changed, or only the state,
or the output as well. -/
theorem round_cases (run : domain.round isCancelled machine block = .complete next) :
    isCancelled machine.ticks = false ∧ ∃ ticks incoming,
      domain.incomingState isCancelled block machine.outputs (machine.states block) (machine.ticks + 1) =
        some (ticks, incoming) ∧ ((machine.states block = incoming ∧ (machine.outputs block).isSome ∧
        next = { machine with ticks := ticks }) ∨
      (machine.outputs block = some (domain.transfer block incoming) ∧
        next = { machine with states := Function.update machine.states block incoming, ticks := ticks }) ∨
      ∃ updates ≤ domain.convergenceBound,
        next =
          { states := Function.update machine.states block incoming
            outputs := Function.update machine.outputs block (some (domain.transfer block incoming))
            worklist := domain.enqueueAll ((graph.traversalEdges block domain.direction).map
              fun edge => edge.traversalTarget domain.direction) machine.worklist
            updates := updates
            ticks := ticks }) := by
  unfold round at run
  split at run
  · cases run
  next quiet =>
  refine ⟨by simpa using quiet, ?_⟩
  split at run
  · cases run
  next ticks incoming arrived =>
  refine ⟨ticks, incoming, arrived, ?_⟩
  dsimp only at run
  split at run
  · next unchanged =>
    simp only [Bool.and_eq_true, Bool.not_eq_true', bne_eq_false_iff_eq] at unchanged
    cases run
    exact .inl ⟨unchanged.1, unchanged.2, rfl⟩
  split at run
  · next kept =>
    cases run
    exact .inr (.inl ⟨kept, rfl⟩)
  split at run
  · cases run
  · next bounded =>
    cases run
    exact .inr (.inr ⟨_, Nat.le_of_not_lt bounded, rfl⟩)

/-- A round keeps the invariant. -/
theorem round_flowing (lawful : domain.Lawful along)
  (flowing : domain.Flowing along { machine with worklist := worklist })
  (popped : ∀ other, Pending other worklist ↔ other = block ∨ Pending other machine.worklist)
  (run : domain.round isCancelled machine block = .complete next) : domain.Flowing along next := by
  obtain ⟨-, ticks, incoming, arrived, cases⟩ := round_cases run
  have solved : (incoming : WithBot State) = domain.inflow along machine.outputs block :=
    incomingState_eq lawful (flowing.below block) arrived
  rcases cases with ⟨unchanged, found, rfl⟩ | ⟨kept, rfl⟩ | ⟨updates, -, rfl⟩
  · obtain ⟨output, found⟩ := Option.isSome_iff_exists.mp found
    have kept : machine.outputs block = some (domain.transfer block incoming) := by
      rw [found, flowing.transferred block output found, ← unchanged]
    have same : Function.update machine.states block incoming = machine.states := by
      rw [← unchanged, update_eq_self]
    have kept_flowing := flowing_of_kept flowing popped solved kept ticks
    rwa [same] at kept_flowing
  · exact flowing_of_kept flowing popped solved kept ticks
  · exact flowing_of_replaced lawful flowing popped solved updates ticks

omit [SemilatticeSup State] in
/-- What a round keeps of the request: no answer so far was "cancelled", and the updates are within the
bound. -/
theorem round_quiet (quiet : ∀ tick < machine.ticks, isCancelled tick = false)
    (bounded : machine.updates ≤ domain.convergenceBound)
    (run : domain.round isCancelled machine block = .complete next) :
    (∀ tick < next.ticks, isCancelled tick = false) ∧ next.updates ≤ domain.convergenceBound := by
  obtain ⟨now, ticks, incoming, arrived, cases⟩ := round_cases run
  have quiet_until : ∀ tick < ticks, isCancelled tick = false := by
    intro tick early
    rcases Nat.lt_trichotomy tick machine.ticks with before | same | after
    · exact quiet tick before
    · rw [same]
      exact now
    · exact incomingState_uncancelled arrived tick after early
  rcases cases with ⟨-, -, rfl⟩ | ⟨-, rfl⟩ | ⟨updates, within, rfl⟩
  · exact ⟨quiet_until, bounded⟩
  · exact ⟨quiet_until, bounded⟩
  · exact ⟨quiet_until, within⟩

end Rounds

/-! ## 4. Runs -/

section Runs

variable [SemilatticeSup State] [DecidableEq State] {domain : FixedPointDomain graph State}
  {along : Edge graph.blocks → State → WithBot State} {isCancelled : Nat → Bool}

theorem pending_cons (entry : Nat × Fin graph.blocks) (rest : List (Nat × Fin graph.blocks))
    (other : Fin graph.blocks) : Pending other (entry :: rest) ↔ other = entry.2 ∨ Pending other rest := by
  constructor
  · intro ⟨priority, listed⟩
    rcases mem_cons.mp listed with same | listed
    · exact .inl (by rw [← same])
    · exact .inr ⟨priority, listed⟩
  · intro cases
    rcases cases with same | ⟨priority, listed⟩
    · exact ⟨entry.1, by rw [same]; exact (.head _)⟩
    · exact ⟨priority, .tail _ listed⟩

/-- A run from a machine in the invariant ends in one, with an empty worklist. -/
theorem solveLoop_flowing (lawful : domain.Lawful along) :
    ∀ {fuel : Nat} {machine last : Machine graph State}, domain.Flowing along machine →
      domain.solveLoop isCancelled fuel machine = some (.complete last) →
      domain.Flowing along last ∧ last.worklist = [] := by
  intro fuel
  induction fuel with
  | zero =>
    intro machine last _ run
    cases run
  | succ fuel ih =>
    intro machine last flowing run
    unfold solveLoop at run
    split at run
    · next empty =>
      cases run
      exact ⟨flowing, empty⟩
    · next priority block rest split =>
      split at run
      · next next stepped =>
        have popped : domain.Flowing along
          { ({ machine with worklist := rest } : Machine graph State) with worklist := machine.worklist } := flowing
        refine ih (round_flowing lawful popped ?_ stepped) run
        intro other
        rw [split]
        exact pending_cons _ _ _
      · cases run
      · cases run

omit [SemilatticeSup State] in
/-- A complete run was never told that it is cancelled and stayed within its bound. -/
theorem solveLoop_quiet :
    ∀ {fuel : Nat} {machine last : Machine graph State}, (∀ tick < machine.ticks, isCancelled tick = false) →
      machine.updates ≤ domain.convergenceBound →
      domain.solveLoop isCancelled fuel machine = some (.complete last) →
      (∀ tick < last.ticks, isCancelled tick = false) ∧ last.updates ≤ domain.convergenceBound := by
  intro fuel
  induction fuel with
  | zero =>
    intro machine last _ _ run
    cases run
  | succ fuel ih =>
    intro machine last quiet bounded run
    unfold solveLoop at run
    split at run
    · cases run
      exact ⟨quiet, bounded⟩
    · split at run
      · next next stepped =>
        obtain ⟨quiet, bounded⟩ := round_quiet (by exact quiet) (by exact bounded) stepped
        exact ih quiet bounded run
      · cases run
      · cases run

omit [DecidableEq State] in
/-- At the end every reached block has an output. -/
theorem Flowing.isSome_of_reached {machine : Machine graph State} (flowing : domain.Flowing along machine)
    (empty : machine.worklist = []) {block : Fin graph.blocks} (reached : domain.Reached block) :
    (machine.outputs block).isSome := by
  have idle : ∀ other, ¬ Pending other machine.worklist := by
    intro other ⟨_, listed⟩
    rw [empty] at listed
    cases listed
  induction reached with
  | start starts => exact (flowing.started _ starts).resolve_right (idle _)
  | step listed _ ih => exact (flowing.followed _ listed ih).resolve_right (idle _)

end Runs

/-! ## 5. The solver returns -/

section Returns

variable [DecidableEq State] {domain : FixedPointDomain graph State} {isCancelled : Nat → Bool}

/-- How many blocks have no output yet. -/
def untouched (outputs : Fin graph.blocks → Option State) : Nat :=
  (Finset.univ.filter fun block => (outputs block).isNone).card

omit [DecidableEq State] in
theorem untouched_update_le (outputs : Fin graph.blocks → Option State) (block : Fin graph.blocks) (output : State) :
    untouched (Function.update outputs block (some output)) ≤ untouched outputs := by
  refine Finset.card_le_card fun other listed => ?_
  by_cases same : other = block
  · simp [same] at listed
  · simpa [update_of_ne same] using listed

omit [DecidableEq State] in
theorem untouched_update_lt (outputs : Fin graph.blocks → Option State) (block : Fin graph.blocks) (output : State)
    (first : outputs block = none) :
    untouched (Function.update outputs block (some output)) < untouched outputs := by
  refine Finset.card_lt_card ⟨fun other listed => ?_, fun covered => ?_⟩
  · by_cases same : other = block
    · simp [same] at listed
    · simpa [update_of_ne same] using listed
  · have listed := covered (Finset.mem_filter.mpr ⟨Finset.mem_univ block, by rw [first]; rfl⟩)
    simp at listed

theorem length_insertPending_le {blocks : Nat} (entry : Nat × Fin blocks) (worklist : List (Nat × Fin blocks)) :
    (insertPending entry worklist).length ≤ worklist.length + 1 := by
  induction worklist with
  | nil => simp [insertPending]
  | cons head rest ih =>
    unfold insertPending
    split
    · simp
    split
    · simp
    · simpa using ih

omit [DecidableEq State] in
theorem length_enqueueAll_le (domain : FixedPointDomain graph State) (targets : List (Fin graph.blocks)) :
    ∀ worklist, (domain.enqueueAll targets worklist).length ≤ worklist.length + targets.length := by
  induction targets with
  | nil => simp [enqueueAll]
  | cons block rest ih =>
    intro worklist
    have first : (domain.enqueue block worklist).length ≤ worklist.length + 1 := length_insertPending_le _ _
    have others := ih (domain.enqueue block worklist)
    rw [enqueueAll, foldl_cons, ← enqueueAll, length_cons]
    omega

/-- An upper bound for the rounds that are left: the outputs can still be replaced so often, and each
time no more blocks than there are edges are added to those that wait. -/
def potential (domain : FixedPointDomain graph State) (machine : Machine graph State) : Nat :=
  (domain.convergenceBound - machine.updates + untouched machine.outputs) * (graph.edges.length + 1) +
    machine.worklist.length

omit [DecidableEq State] in
theorem length_targets_le (domain : FixedPointDomain graph State) (block : Fin graph.blocks) :
    ((graph.traversalEdges block domain.direction).map
      fun edge => edge.traversalTarget domain.direction).length ≤ graph.edges.length := by
  rw [length_map]
  cases domain.direction <;> exact length_filter_le _ _

/-- A round that goes on does not raise the potential. -/
theorem round_potential {machine next : Machine graph State} {block : Fin graph.blocks}
    (finite : domain.convergenceBound < usizeMax) (bounded : machine.updates ≤ domain.convergenceBound)
    (run : domain.round isCancelled machine block = .complete next) :
    domain.potential next ≤ domain.potential machine ∧ next.updates ≤ domain.convergenceBound := by
  unfold round at run
  split at run
  · cases run
  split at run
  · cases run
  next ticks incoming arrived =>
  dsimp only at run
  split at run
  · cases run
    exact ⟨le_rfl, bounded⟩
  next changing =>
  split at run
  · cases run
    exact ⟨le_rfl, bounded⟩
  split at run
  · cases run
  next within =>
  cases run
  refine ⟨?_, Nat.le_of_not_lt within⟩
  have added := Nat.le_trans (domain.length_enqueueAll_le _ machine.worklist)
    (Nat.add_le_add_left (domain.length_targets_le block) _)
  have fewer := untouched_update_le machine.outputs block (domain.transfer block incoming)
  -- The state changed, which is counted, or this is the block's first output.
  have spent : domain.convergenceBound - min (machine.updates + (machine.states block != incoming).toNat) usizeMax +
    untouched (Function.update machine.outputs block (some (domain.transfer block incoming))) + 1 ≤
    domain.convergenceBound - machine.updates + untouched machine.outputs := by
    by_cases changed : machine.states block = incoming
    · have first : machine.outputs block = none := by
        simpa [changed] using changing
      have strictly := untouched_update_lt machine.outputs block (domain.transfer block incoming) first
      omega
    · have counted : (machine.states block != incoming).toNat = 1 := by
        simp [changed]
      omega
  have scaled := Nat.mul_le_mul_right (graph.edges.length + 1) spent
  simp only [potential]
  rw [Nat.add_mul, Nat.one_mul] at scaled
  omega

/-- With a bound that the saturating counter can pass, the solver returns. -/
theorem solveLoop_isSome (finite : domain.convergenceBound < usizeMax) :
    ∀ {fuel : Nat} {machine : Machine graph State}, machine.updates ≤ domain.convergenceBound →
      domain.potential machine < fuel → (domain.solveLoop isCancelled fuel machine).isSome := by
  intro fuel
  induction fuel with
  | zero =>
    intro machine _ enough
    omega
  | succ fuel ih =>
    intro machine bounded enough
    unfold solveLoop
    split
    · rfl
    next priority block rest split =>
    split
    · next next stepped =>
      obtain ⟨lower, bounded⟩ := round_potential finite (by exact bounded) stepped
      refine ih bounded ?_
      simp only [potential, split, length_cons] at lower enough ⊢
      omega
    · rfl
    · rfl

end Returns

/-! ## 6. Main result -/

section Main

variable [SemilatticeSup State] [DecidableEq State]

end Main

/-! ## 7. A loop -/

/-- An entry, a loop header with its body, and an exit; the body leads back to the header. -/
def loopGraph : ControlFlowGraph where
  blocks := 4
  entry := 0
  edges :=
    [⟨0, 0, 1, .loopEntry⟩, ⟨1, 1, 2, .conditionalTrue⟩, ⟨2, 2, 1, .loopBack⟩, ⟨3, 1, 3, .loopBreak⟩]
  exits := [3]
  componentOrder := ![0, 1, 1, 2]

/-- Whether a value may have been written: only the body of the loop writes it. -/
def mayBeWritten : FixedPointDomain loopGraph Bool where
  direction := .forward
  initial := fun _ => false
  shouldSeed := fun _ => false
  boundary := false
  merge := fun _ target source => target || source
  transfer := fun block source => source || block.val == 2
  propagate := fun source _ target => target || source
  convergenceBound := 8

theorem mayBeWritten_lawful : mayBeWritten.Lawful fun _ state => (state : WithBot Bool) where
  merge_eq := fun _ _ _ => rfl
  propagate_eq := fun _ _ _ => rfl
  transfer_mono := by
    intro block
    show ∀ x y : Bool, x ≤ y → (x || block.val == 2) ≤ (y || block.val == 2)
    intro x y
    cases x <;> cases y <;> cases (block.val == 2 : Bool) <;> decide
  along_mono := fun _ _ _ larger => WithBot.coe_le_coe.mpr larger

/-- The bound allows eight updates: 61 rounds are enough. -/
theorem solveLoop_isSome_loop : (mayBeWritten.solveLoop (fun _ => false) 62 mayBeWritten.start).isSome :=
  solveLoop_isSome (by decide) (Nat.zero_le _) (by decide +kernel)

end FixedPointDomain

end Bray.Flow
