/-
  File:      Bray/Execution/Fair.lean
  Subject:   THE SLOTS ARE BOUNDED, WORK CONSERVING AND FAIR, over every run of any number of parties.

  Every step changes the counters as it changes the place of its party (`Effect`), so the counters count
  the parties in every state a run reaches (`Counted`), and no step faults. Where a slot is free and a
  party is blocked, the rule of `can_acquire` admits a blocked party (`conserving`). An interactive grant
  while an ordinary party stays blocked needs a streak below the bound, which it increases (`fair`).
-/
import Bray.Execution.Slots

namespace Bray.Execution

open Bray.Lib

/-- The number of registered waiters of a class. -/
def SlotState.waiters (state : SlotState) (interactive : Bool) : Nat :=
  if interactive then state.interactiveWaiters else state.ordinaryWaiters

/-! ## 1. The operations on the counters -/

section Counters

variable {state state' : SlotState} {interactive promoted : Bool} {limit : Nat}

/-- Nothing but the waiters of one class changes, by one up. -/
structure Registers (state : SlotState) (interactive : Bool) (state' : SlotState) : Prop where
  active : state'.active = state.active
  streak : state'.interactiveStreak = state.interactiveStreak
  waiters : ∀ c, state'.waiters c = state.waiters c + if c = interactive then 1 else 0

theorem registers_of_registerWaiter (h : registerWaiter state interactive = .ok state') :
    Registers state interactive state' := by
  unfold registerWaiter checkedAddOne at h
  cases interactive with
  | true =>
    simp only [if_true] at h
    split at h
    · cases h
      exact ⟨rfl, rfl, fun c => by cases c <;> simp [SlotState.waiters]⟩
    · cases h
  | false =>
    simp only [Bool.false_eq_true, if_false] at h
    split at h
    · cases h
      exact ⟨rfl, rfl, fun c => by cases c <;> simp [SlotState.waiters]⟩
    · cases h

theorem unregisterWaiter_eq (pos : 0 < state.waiters interactive) :
    ∃ state', unregisterWaiter state interactive = .ok state' ∧ Registers state' interactive state := by
  unfold unregisterWaiter
  cases interactive with
  | true =>
    have pos : state.interactiveWaiters ≠ 0 := Nat.ne_of_gt pos
    simp only [if_true, if_neg pos]
    refine ⟨_, rfl, rfl, rfl, fun c => ?_⟩
    cases c
    · simp [SlotState.waiters]
    · simp only [SlotState.waiters, if_true]
      omega
  | false =>
    have pos : state.ordinaryWaiters ≠ 0 := Nat.ne_of_gt pos
    simp only [Bool.false_eq_true, if_false, if_neg pos]
    refine ⟨_, rfl, rfl, rfl, fun c => ?_⟩
    cases c
    · simp only [SlotState.waiters, Bool.false_eq_true, if_false, if_true]
      omega
    · simp [SlotState.waiters]

/-- One more slot is taken, and the streak follows the class. -/
structure Grants (state : SlotState) (interactive : Bool) (state' : SlotState) : Prop where
  active : state'.active = state.active + 1
  streak : state'.interactiveStreak = if interactive then state.interactiveStreak + 1 else 0
  waiters : ∀ c, state'.waiters c = state.waiters c

theorem grants_of_grantSlot (h : grantSlot state interactive = .ok state') : Grants state interactive state' := by
  obtain ⟨streak, streakOk, h⟩ := except_bind_eq_ok.mp h
  obtain ⟨active, activeOk, h⟩ := except_bind_eq_ok.mp h
  cases h
  unfold grantedStreak checkedAddOne at streakOk
  unfold checkedAddOne at activeOk
  refine ⟨?_, ?_, fun c => rfl⟩
  · split at activeOk
    · cases activeOk
      rfl
    · cases activeOk
  · cases interactive with
    | true =>
      simp only [if_true] at streakOk ⊢
      split at streakOk
      · cases streakOk
        rfl
      · cases streakOk
    | false =>
      cases streakOk
      rfl

theorem lt_limit_of_canAcquire (h : canAcquire limit state interactive = true) : state.active < limit := by
  unfold canAcquire at h
  split at h
  · cases h
  · omega

/-- The rule for an interactive party. -/
theorem canAcquire_interactive (h : canAcquire limit state true = true) :
    state.interactiveStreak < maxInteractiveStreak ∨ state.waiters false = 0 := by
  unfold canAcquire at h
  split at h
  · cases h
  · simpa [SlotState.waiters] using h

/-- What a turn of a registered party does to the counters. -/
structure TurnSpec (limit : Nat) (state : SlotState) (interactive promoted : Bool) (state' : SlotState)
  (turn : Turn) : Prop where
  active : state'.active = state.active + if turn = .acquired then 1 else 0
  free : turn = .acquired → state.active < limit
  waiters : ∀ c, state'.waiters c + (if c = interactive then 1 else 0) =
    state.waiters c + if turn = .waits ∧ c = promoted then 1 else 0
  streak : state'.interactiveStreak =
    if turn = .acquired then if promoted then state.interactiveStreak + 1 else 0
    else state.interactiveStreak
  rule : turn = .acquired → promoted = true →
    state.interactiveStreak < maxInteractiveStreak ∨ state'.waiters false = 0

/-- The check, of a party whose class is up to date. -/
theorem settle_eq (pos : 0 < state.waiters interactive) :
    ∃ state' turn, settle limit state interactive = .ok (state', turn) ∧
      TurnSpec limit state interactive interactive state' turn := by
  unfold settle
  cases admitted : canAcquire limit state interactive with
  | false =>
    refine ⟨state, .waits, rfl, ⟨rfl, nofun, fun c => ?_, rfl, nofun⟩⟩
    simp
  | true =>
    obtain ⟨state₁, unregistered, back⟩ := unregisterWaiter_eq pos
    simp only [if_true, unregistered, except_ok_bind]
    cases granted : grantSlot state₁ interactive with
    | error resource =>
      refine ⟨state₁, .failed resource, rfl, ⟨back.active.symm, nofun, fun c => ?_, back.streak.symm, nofun⟩⟩
      simp [back.waiters c]
    | ok state₂ =>
      have grants := grants_of_grantSlot granted
      refine ⟨state₂, .acquired, rfl, ⟨?_, fun _ => lt_limit_of_canAcquire admitted, fun c => ?_, ?_, ?_⟩⟩
      · rw [grants.active, back.active]
        rfl
      · simp [grants.waiters c, back.waiters c]
      · rw [grants.streak, back.streak]
        rfl
      · intro _ isInteractive
        subst isInteractive
        rw [grants.waiters]
        rcases canAcquire_interactive admitted with short | none
        · exact .inl short
        · have := back.waiters false
          exact .inr (by omega)

/-- **A turn of a registered party does not fault**, and the counters follow its class. -/
theorem turn_eq (pos : 0 < state.waiters interactive) :
    ∃ state' turn, Bray.Execution.turn limit state interactive promoted = .ok (state', turn) ∧
      TurnSpec limit state interactive promoted state' turn := by
  unfold turn reclassify
  by_cases same : promoted = interactive
  · subst same
    rw [if_pos rfl]
    exact settle_eq pos
  · rw [if_neg same]
    obtain ⟨state₁, unregistered, back⟩ := unregisterWaiter_eq pos
    rw [unregistered, except_ok_bind]
    cases registered : registerWaiter state₁ promoted with
    | error resource =>
      refine ⟨state₁, .failed resource, rfl, ⟨back.active.symm, nofun, fun c => ?_, back.streak.symm, nofun⟩⟩
      simp [back.waiters c]
    | ok state₂ =>
      have forth := registers_of_registerWaiter registered
      have pos₂ : 0 < state₂.waiters promoted := by
        rw [forth.waiters, if_pos rfl]
        omega
      obtain ⟨state₃, turn, settled, spec⟩ := @settle_eq _ _ limit pos₂
      refine ⟨state₃, turn, settled, ?_, fun h => ?_, fun c => ?_, ?_, fun h h' => ?_⟩
      · rw [spec.active, forth.active, back.active]
      · have := spec.free h
        rwa [forth.active, ← back.active] at this
      · have moved := spec.waiters c
        rw [forth.waiters c] at moved
        rw [back.waiters c]
        omega
      · rw [spec.streak, forth.streak, back.streak]
      · have := spec.rule h h'
        rwa [forth.streak, ← back.streak] at this

end Counters

theorem releaseSlot_eq {state : SlotState} (pos : 0 < state.active) :
  releaseSlot state = .ok { state with active := state.active - 1 } := if_neg (Nat.ne_of_gt pos)

/-! ## 2. What a step does -/

section Steps

variable {ι δ : Type} [DecidableEq ι] [DecidableEq δ] {limit : Nat} {s s' : System ι δ} {o : Out}

def unit (test : Bool) : Nat := if test then 1 else 0

/-- **The counters change as the place of one party does.** -/
structure Moved (slots slots' : SlotState) (place place' : Place δ) : Prop where
  active : slots'.active + unit place.held = slots.active + unit place'.held
  waiters : ∀ c, slots'.waiters c + unit (place.blockedAs c) = slots.waiters c + unit (place'.blockedAs c)

/-- What a step may do to the number of active slots and to the streak, by its output. -/
structure Grade (limit : Nat) (slots slots' : SlotState) (o : Out) : Prop where
  bound : slots'.active ≤ slots.active ∨ slots.active < limit ∧ slots'.active = slots.active + 1
  streak : slots'.interactiveStreak = match o with
    | .granted true => slots.interactiveStreak + 1
    | .granted false => 0
    | _ => slots.interactiveStreak
  rule : o = .granted true → slots.interactiveStreak < maxInteractiveStreak ∨ slots'.waiters false = 0

/-- **What a step does**: it moves one party, or no party and no counter. -/
inductive Effect (limit : Nat) (s s' : System ι δ) (o : Out) : Prop where
  | stays (slots : s'.slots = s.slots) (place : s'.place = s.place) (silent : o = .silent)
  | moves (party : ι) (next : Place δ) (place : s'.place = Function.update s.place party next)
    (moved : Moved s.slots s'.slots (s.place party) next) (grade : Grade limit s.slots s'.slots o)

theorem Grade.same (slots : SlotState) (quiet : ∀ interactive, o ≠ .granted interactive) :
    Grade limit slots slots o := by
  refine ⟨.inl (Nat.le_refl _), ?_, fun h => absurd h (quiet true)⟩
  cases o with
  | granted interactive => exact absurd rfl (quiet interactive)
  | silent | refused | failed resource => rfl

/-- A party goes between two places that count alike. -/
theorem Effect.wanders {party : ι} {next : Place δ} (held : (s.place party).held = next.held)
    (blocked : ∀ c, (s.place party).blockedAs c = next.blockedAs c)
    (quiet : ∀ interactive, o ≠ .granted interactive) : Effect limit s (s.goto s.slots party next) o := by
  refine .moves party next rfl ⟨?_, fun c => ?_⟩ (Grade.same s.slots quiet)
  · rw [held]
    rfl
  · rw [blocked c]
    rfl

/-- The capacity of a party is returned. -/
theorem Effect.releases {party : ι} {next : Place δ} (held : (s.place party).held = true)
    (left : next.held = false) (blocked : ∀ c, (s.place party).blockedAs c = next.blockedAs c)
    (pos : 0 < s.slots.active) :
    Effect limit s (s.goto { s.slots with active := s.slots.active - 1 } party next) .silent := by
  refine .moves party next rfl ⟨?_, fun c => ?_⟩ ⟨.inl (Nat.sub_le _ _), rfl, nofun⟩
  · rw [held, left]
    show s.slots.active - 1 + 1 = s.slots.active + 0
    omega
  · rw [blocked c]
    rfl

/-- **A turn, as a step of its party.** The waiters that the turn starts with count the party in the class
it is registered in. -/
theorem takeTurn_effect {slots : SlotState} {party : ι} {demand : δ} {resuming interactive : Bool}
    (active : slots.active = s.slots.active) (streak : slots.interactiveStreak = s.slots.interactiveStreak)
    (waiters : ∀ c, slots.waiters c + unit ((s.place party).blockedAs c) =
      s.slots.waiters c + if c = interactive then 1 else 0)
    (pos : 0 < slots.waiters interactive) (free : (s.place party).held = false) :
    ∃ s' o, s.takeTurn limit slots party demand resuming interactive = .ok (s', o) ∧ Effect limit s s' o := by
  obtain ⟨slots', turn, taken, spec⟩ := @turn_eq _ _ (s.interactive demand) limit pos
  unfold System.takeTurn
  simp only [taken, except_ok_bind]
  cases turn with
  | waits =>
    refine ⟨_, _, rfl, .moves party _ rfl ⟨?_, fun c => ?_⟩ ⟨.inl ?_, spec.streak.trans streak, nofun⟩⟩
    · rw [free]
      exact spec.active.trans active
    · have := waiters c
      have := spec.waiters c
      have place : unit ((Place.blocked demand resuming (s.interactive demand)).blockedAs c) =
        if c = s.interactive demand then 1 else 0 := by
        cases c <;> cases s.interactive demand <;> rfl
      simp only [true_and] at this
      show slots'.waiters c + _ = _
      omega
    · exact Nat.le_of_eq (spec.active.trans active)
  | acquired =>
    have grows : slots'.active = s.slots.active + 1 := by
      rw [spec.active, active]
      rfl
    refine ⟨_, _, rfl, .moves party _ rfl ⟨?_, fun c => ?_⟩ ⟨.inr ⟨?_, grows⟩, ?_, ?_⟩⟩
    · rw [free]
      exact grows
    · have := waiters c
      have := spec.waiters c
      simp only [reduceCtorEq, false_and, if_false] at this
      show slots'.waiters c + _ = s.slots.waiters c + 0
      omega
    · rw [← active]
      exact spec.free rfl
    · have := spec.streak
      rw [if_pos rfl, streak] at this
      rw [show (s.goto slots' party (.granted demand)).slots = slots' from rfl, this]
      cases s.interactive demand <;> rfl
    · intro h
      have promoted : s.interactive demand = true := by simpa using h
      rw [← streak]
      exact spec.rule rfl promoted
  | failed resource =>
    refine ⟨_, _, rfl, .moves party _ rfl ⟨?_, fun c => ?_⟩ ⟨.inl ?_, spec.streak.trans streak, nofun⟩⟩
    · rw [free, show (Place.abandoned demand resuming).held = false by cases resuming <;> rfl]
      exact spec.active.trans active
    · have := waiters c
      have := spec.waiters c
      rw [show (Place.abandoned demand resuming).blockedAs c = false by cases resuming <;> rfl]
      simp only [reduceCtorEq, false_and, if_false] at this
      show slots'.waiters c + _ = s.slots.waiters c + 0
      omega
    · exact Nat.le_of_eq (spec.active.trans active)

end Steps

/-! ## 3. The counters count the parties -/

section Runs

variable {ι δ : Type} [Fintype ι] [DecidableEq ι] [DecidableEq δ] {limit : Nat} {s s' : System ι δ} {o : Out}

/-- **The counters count the parties**: the active slots those with capacity, the waiters those that are
registered. -/
structure Counted (limit : Nat) (s : System ι δ) : Prop where
  active : s.slots.active = census s.place fun place => place.held = true
  bounded : s.slots.active ≤ limit
  waiters : ∀ c, s.slots.waiters c = census s.place fun place => place.blockedAs c = true

theorem counted_initial (demands : δ → QueryPriority) : Counted limit (System.initial (ι := ι) demands) := by
  refine ⟨(census_eq_zero fun i => ?_).symm, Nat.zero_le _, fun c => ?_⟩
  · exact Bool.false_ne_true
  · rw [census_eq_zero fun i => ?_]
    · cases c <;> rfl
    · exact Bool.false_ne_true

variable {party : ι}

theorem Counted.active_pos (counted : Counted limit s) (held : (s.place party).held = true) :
    0 < s.slots.active := by
  rw [counted.active]
  exact census_pos held

theorem Counted.waiters_pos (counted : Counted limit s) {c : Bool}
    (blocked : (s.place party).blockedAs c = true) : 0 < s.slots.waiters c := by
  rw [counted.waiters]
  exact census_pos blocked

/-- **A step keeps the counts.** -/
theorem Counted.effect (counted : Counted limit s) (effect : Effect limit s s' o) : Counted limit s' := by
  cases effect with
  | stays slots place silent =>
    refine ⟨?_, slots ▸ counted.bounded, fun c => ?_⟩
    · rw [slots, place]
      exact counted.active
    · rw [slots, place]
      exact counted.waiters c
  | moves party next place moved grade =>
    refine ⟨?_, ?_, fun c => ?_⟩
    · have shift := census_update s.place (fun place => place.held = true) party next
      have step := moved.active
      unfold unit at step
      have := counted.active
      rw [place]
      omega
    · rcases grade.bound with same | ⟨room, grows⟩
      · exact Nat.le_trans same counted.bounded
      · omega
    · have shift := census_update s.place (fun place => place.blockedAs c = true) party next
      have step := moved.waiters c
      unfold unit at step
      have := counted.waiters c
      rw [place]
      omega

/-- The grant of `try_acquire`. -/
theorem attempt_effect {demand : δ} {interactive : Bool} {slots : SlotState}
    (at_party : s.place party = .attempting demand interactive)
    (admitted : canAcquire limit s.slots interactive = true) (granted : grantSlot s.slots interactive = .ok slots) :
    Effect limit s (s.goto slots party (.granted demand)) (.granted interactive) := by
  have grants := grants_of_grantSlot granted
  refine .moves party _ rfl ⟨?_, fun c => ?_⟩
    ⟨.inr ⟨lt_limit_of_canAcquire admitted, grants.active⟩, ?_, fun h => ?_⟩
  · rw [at_party]
    exact grants.active
  · rw [at_party]
    exact congrArg (· + 0) (grants.waiters c)
  · show slots.interactiveStreak = _
    rw [grants.streak]
    cases interactive <;> rfl
  · cases h
    rw [show (s.goto slots party (.granted demand)).slots = slots from rfl, grants.waiters]
    exact canAcquire_interactive admitted

/-- **No step faults where the counters count the parties**, and every step has one of the effects. -/
theorem step_effect (counted : Counted limit s) (step : Step ι δ) :
    ∃ s' o, s.step limit step = .ok (s', o) ∧ Effect limit s s' o := by
  have stays : Effect limit s s .silent := .stays rfl rfl rfl
  cases step with
  | acquire party demand | tryAcquire party demand =>
    simp only [System.step]
    split
    · rename_i at_party
      exact ⟨_, _, rfl, .wanders (by rw [at_party]; rfl) (fun c => by rw [at_party]; rfl) nofun⟩
    · exact ⟨_, _, rfl, stays⟩
  | resume party | mark party =>
    simp only [System.step]
    split
    · rename_i demand at_party
      exact ⟨_, _, rfl, .wanders (by rw [at_party]; rfl) (fun c => by rw [at_party]; rfl) nofun⟩
    · exact ⟨_, _, rfl, stays⟩
  | enter party =>
    simp only [System.step]
    split
    · rename_i demand resuming interactive at_party
      split
      · refine ⟨_, _, rfl, .wanders ?_ (fun c => ?_) nofun⟩
        · rw [at_party]
          cases resuming <;> rfl
        · rw [at_party]
          cases resuming <;> rfl
      · rename_i slots registered
        have registers := registers_of_registerWaiter registered
        refine takeTurn_effect registers.active registers.streak (fun c => ?_) ?_ (by rw [at_party]; rfl)
        · rw [at_party]
          exact registers.waiters c
        · rw [registers.waiters, if_pos rfl]
          omega
    · exact ⟨_, _, rfl, stays⟩
  | wake party =>
    simp only [System.step]
    split
    · rename_i demand resuming interactive at_party
      have blocked : (s.place party).blockedAs interactive = true := by
        rw [at_party]
        exact beq_self_eq_true interactive
      refine takeTurn_effect rfl rfl (fun c => ?_) (counted.waiters_pos blocked) (by rw [at_party]; rfl)
      rw [at_party]
      cases c <;> cases interactive <;> rfl
    · exact ⟨_, _, rfl, stays⟩
  | attempt party =>
    simp only [System.step]
    split
    · rename_i demand interactive at_party
      split
      · rename_i admitted
        split
        · rename_i slots granted
          exact ⟨_, _, rfl, attempt_effect at_party admitted granted⟩
        · exact ⟨_, _, rfl, .wanders (by rw [at_party]; rfl) (fun c => by rw [at_party]; rfl) nofun⟩
      · exact ⟨_, _, rfl, .wanders (by rw [at_party]; rfl) (fun c => by rw [at_party]; rfl) nofun⟩
    · exact ⟨_, _, rfl, stays⟩
  | suspend party | release party =>
    simp only [System.step]
    split
    · rename_i demand at_party
      have held : (s.place party).held = true := by
        rw [at_party]
        rfl
      have pos := counted.active_pos held
      rw [releaseSlot_eq pos, except_ok_bind]
      exact ⟨_, _, rfl, .releases held rfl (fun c => by rw [at_party]; rfl) pos⟩
    · exact ⟨_, _, rfl, stays⟩
  | drop party =>
    simp only [System.step]
    split
    · rename_i demand at_party
      exact ⟨_, _, rfl, .wanders (by rw [at_party]; rfl) (fun c => by rw [at_party]; rfl) nofun⟩
    · rename_i demand at_party
      exact ⟨_, _, rfl, .wanders (by rw [at_party]; rfl) (fun c => by rw [at_party]; rfl) nofun⟩
    · exact ⟨_, _, rfl, stays⟩
  | promote demand priority => exact ⟨_, _, rfl, .stays rfl rfl rfl⟩

/-! ## 4. Work conserving -/

/-- **A free slot is open to a blocked party**: whatever the streak, the rule admits one of the classes in
which a party is blocked. -/
theorem Counted.conserving (counted : Counted limit s) (free : s.slots.active < limit) {c : Bool}
    (blocked : (s.place party).blockedAs c = true) :
    ∃ other interactive, (s.place other).blockedAs interactive = true ∧
      canAcquire limit s.slots interactive = true := by
  have room : ¬ s.slots.active ≥ limit := Nat.not_le.mpr free
  have someone (c : Bool) (pos : 0 < s.slots.waiters c) : ∃ other, (s.place other).blockedAs c = true := by
    rw [counted.waiters] at pos
    exact exists_of_census_pos pos
  simp only [canAcquire, if_neg room]
  by_cases interactives : 0 < s.slots.waiters true
  · by_cases ordinary : 0 < s.slots.waiters false
    · by_cases short : s.slots.interactiveStreak < maxInteractiveStreak
      · obtain ⟨other, there⟩ := someone true interactives
        exact ⟨other, true, there, by simp [short]⟩
      · obtain ⟨other, there⟩ := someone false ordinary
        exact ⟨other, false, there, by simp [Nat.not_lt.mp short]⟩
    · obtain ⟨other, there⟩ := someone true interactives
      have none : s.slots.ordinaryWaiters = 0 := Nat.eq_zero_of_not_pos ordinary
      exact ⟨other, true, there, by simp [none]⟩
  · have none : s.slots.interactiveWaiters = 0 := Nat.eq_zero_of_not_pos interactives
    cases c with
    | true => exact absurd (counted.waiters_pos blocked) interactives
    | false => exact ⟨party, false, blocked, by simp [none]⟩

/-! ## 5. Fairness -/

def BlockedOrdinary (party : ι) (s : System ι δ) : Prop := (s.place party).blockedAs false = true

def interactiveGrants (tr : List (Step ι δ × Out)) : Nat := tr.countP fun x => x.2 = .granted true

/-- **The streak counts the interactive grants** of a run in which an ordinary party stays blocked and no
ordinary party is granted a slot, and such a grant leaves it at the bound at most. -/
theorem streak_of_run {tr : List (Step ι δ × Out)}
    (run : RunWhere (fun s _ => BlockedOrdinary party s) (System.step limit) s tr s')
    (counted : Counted limit s) (still : BlockedOrdinary party s') (passed : ∀ x ∈ tr, x.2 ≠ .granted false) :
    s'.slots.interactiveStreak = s.slots.interactiveStreak + interactiveGrants tr ∧
      (0 < interactiveGrants tr → s'.slots.interactiveStreak ≤ maxInteractiveStreak) := by
  induction run with
  | nil s => exact ⟨rfl, fun h => absurd h (Nat.lt_irrefl 0)⟩
  | @cons s s₁ s' step out tr here stepped rest ih =>
    obtain ⟨s₂, out₂, stepped₂, effect⟩ := step_effect counted step
    cases stepped.symm.trans stepped₂
    have next := counted.effect effect
    obtain ⟨total, bound⟩ := ih next still fun x hx => passed x (List.mem_cons_of_mem _ hx)
    have blocked : BlockedOrdinary party s₁ := by
      cases rest with
      | nil => exact still
      | cons there _ _ => exact there
    have waiting := next.waiters_pos blocked
    have here_quiet := passed (step, out) List.mem_cons_self
    have count : interactiveGrants ((step, out) :: tr) =
      interactiveGrants tr + if out = .granted true then 1 else 0 := by
      unfold interactiveGrants
      rw [List.countP_cons]
      simp
    rw [count]
    by_cases grant : out = .granted true
    · subst grant
      have grade : Grade limit s.slots s₁.slots (.granted true) := by
        cases effect with
        | stays slots place silent => cases silent
        | moves party next place moved grade => exact grade
      have grows : s₁.slots.interactiveStreak = s.slots.interactiveStreak + 1 := grade.streak
      have short : s.slots.interactiveStreak < maxInteractiveStreak := by
        rcases grade.rule rfl with short | none
        · exact short
        · omega
      rw [if_pos rfl]
      refine ⟨by omega, fun _ => ?_⟩
      rcases Nat.eq_zero_or_pos (interactiveGrants tr) with none | some
      · omega
      · exact bound some
    · have same : s₁.slots.interactiveStreak = s.slots.interactiveStreak := by
        cases effect with
        | stays slots place silent => rw [slots]
        | moves party next place moved grade =>
          rw [grade.streak]
          cases out with
          | granted interactive =>
            cases interactive with
            | true => exact absurd rfl grant
            | false => exact absurd rfl here_quiet
          | silent | refused | failed resource => rfl
      rw [if_neg grant, Nat.add_zero]
      exact ⟨by omega, bound⟩

/-- **What holds in every state of every run.** -/
structure Orderly (limit : Nat) (s : System ι δ) : Prop where
  /-- The active slots are the held leases, and no more than the limit. -/
  held : s.slots.active = census s.place fun place => place.held = true
  bounded : s.slots.active ≤ limit
  /-- Where no grant is being marked and no drop is under way, they are the leases marked as held. -/
  marked : (∀ party, (s.place party).held = (s.place party).marked) →
    s.slots.active = census s.place fun place => place.marked = true
  interactive : s.slots.interactiveWaiters = census s.place fun place => place.blockedAs true = true
  ordinary : s.slots.ordinaryWaiters = census s.place fun place => place.blockedAs false = true
  /-- Where a slot is free and a party is blocked, a blocked party can acquire. -/
  conserving : s.slots.active < limit → ∀ party c, (s.place party).blockedAs c = true →
    ∃ other interactive, (s.place other).blockedAs interactive = true ∧ canAcquire limit s.slots interactive = true
  /-- From here on, while an ordinary party stays blocked, only so many interactive grants come before an
  ordinary one. -/
  fair : ∀ party tr s', RunWhere (fun s _ => BlockedOrdinary party s) (System.step limit) s tr s' →
    BlockedOrdinary party s' → (∀ x ∈ tr, x.2 ≠ .granted false) →
    interactiveGrants tr ≤ maxInteractiveStreak

theorem Counted.orderly (counted : Counted limit s) : Orderly limit s where
  held := counted.active
  bounded := counted.bounded
  marked := by
    intro rest
    rw [counted.active]
    simp only [census, rest]
  interactive := counted.waiters true
  ordinary := counted.waiters false
  conserving := fun free _ _ blocked => counted.conserving free blocked
  fair := by
    intro party tr s' run still passed
    obtain ⟨total, bound⟩ := streak_of_run run counted still passed
    rcases Nat.eq_zero_or_pos (interactiveGrants tr) with none | some
    · omega
    · omega

/-- **EXECUTION SLOTS ARE BOUNDED, WORK CONSERVING AND FAIR**: no sequence of steps of any number of
parties makes a counter underflow, and every state it reaches is orderly. -/
theorem execution_slots_orderly (limit : Nat) (demands : δ → QueryPriority) (steps : List (Step ι δ)) :
  ∃ s tr, execute (System.step limit) (System.initial (ι := ι) demands) steps = .ok (s, tr) ∧ Orderly limit s := by
  obtain ⟨s, tr, run, counted⟩ := execute_invariant (P := Counted limit) (fun s step counted => by
    obtain ⟨s', o, stepped, effect⟩ := step_effect counted step
    exact ⟨s', o, stepped, counted.effect effect⟩) (counted_initial demands) steps
  exact ⟨s, tr, run, counted.orderly⟩

end Runs

end Bray.Execution
