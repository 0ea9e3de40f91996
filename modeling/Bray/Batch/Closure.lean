/-
  File:      Bray/Batch/Closure.lean
  Subject:   BATCH COMPLETION DOES NOT DEPEND ON THE SCHEDULE.

  `traverse` is the abstract account: one key after the other, first in first out, each scheduled once; it
  stops at the first key whose evaluation fails. What it returns lists the closure of the roots in the order
  in which the keys are scheduled (`traverse_ok`, `traverse_error`).

  A wave of the plan is as many turns of the traversal (`traverse_wave`), whatever the workers did
  (`wave_spec`), so that a batch that is not interrupted returns what the traversal returns
  (`completeBatch_eq`).
-/
import Bray.Batch.Indexed
import Bray.Batch.Plan
import Bray.Lib.Worklist

namespace Bray.Batch

open List

open Lib.Worklist (visit explore room visit_eq visit_append Inv)
open Relation (ReflTransGen)

variable {K T E X : Type} [DecidableEq K] {workerCount : Nat} {failing : FactQueryError X → Prop}
  {cancelled : Prop} {evaluator : K → Except E (BatchWork K T)} {plan : BatchPlan K T}

/-! ## 1. The sequential traversal -/

/-- **The sequential breadth-first traversal**: the keys marked, the keys pending and the values so far; `none`
when the fuel is used up. -/
def traverse (evaluator : K → Except E (BatchWork K T)) :
  Nat → List K → List K → List (K × T) → Option (Except (K × E) (List (K × T)))
  | _, _, [], done => some (.ok done)
  | 0, _, _ :: _, _ => none
  | fuel + 1, seen, key :: pending, done =>
    match evaluator key with
    | .error error => some (.error (key, error))
    | .ok work =>
      traverse evaluator fuel (visit seen pending work.required).1 (visit seen pending work.required).2
        (done ++ [(key, work.value)])

/-- The traversal of the roots. -/
def sequential (evaluator : K → Except E (BatchWork K T)) (fuel : Nat) (roots : List K) :
  Option (Except (K × E) (List (K × T))) :=
  traverse evaluator fuel (visit [] [] roots).1 (visit [] [] roots).2 []

def required (evaluator : K → Except E (BatchWork K T)) (key : K) : List K :=
  match evaluator key with
  | .ok work => work.required
  | .error _ => []

/-- The keys in the order in which the traversal schedules them. -/
def scheduled (evaluator : K → Except E (BatchWork K T)) (fuel : Nat) (roots : List K) : List K :=
  (explore (required evaluator) fuel (visit [] [] roots).1 (visit [] [] roots).2).reverse

/-- The value is that of the key's evaluation. -/
def Valued (evaluator : K → Except E (BatchWork K T)) (entry : K × T) : Prop :=
  ∃ work, evaluator entry.1 = .ok work ∧ entry.2 = work.value

variable {fuel : Nat} {seen pending roots all : List K} {done : List (K × T)}

theorem traverse_mono {more : Nat} (le : fuel ≤ more)
    {result : Except (K × E) (List (K × T))} (ended : traverse evaluator fuel seen pending done = some result) :
    traverse evaluator more seen pending done = some result := by
  induction fuel generalizing more seen pending done with
  | zero =>
    cases pending with
    | nil => cases more <;> exact ended
    | cons key pending => cases ended
  | succ fuel ih =>
    obtain ⟨more, rfl⟩ : ∃ k, more = k + 1 := ⟨more - 1, by omega⟩
    cases pending with
    | nil => exact ended
    | cons key pending =>
      rw [traverse] at ended ⊢
      cases evaluated : evaluator key with
      | error error => rwa [evaluated] at ended
      | ok work =>
        rw [evaluated] at ended
        exact ih (by omega) ended

/-- **The state of the traversal**: the keys marked are, in their order, those done and those pending; no key
is marked twice. -/
structure Underway (evaluator : K → Except E (BatchWork K T)) (seen pending : List K) (done : List (K × T)) :
  Prop where
  order : seen.reverse = done.map Prod.fst ++ pending
  once : seen.Nodup
  inv : Inv (required evaluator) seen pending
  valued : ∀ entry ∈ done, Valued evaluator entry

theorem Underway.turn {key : K} {work : BatchWork K T}
    (before : Underway evaluator seen (key :: pending) done) (evaluated : evaluator key = .ok work) :
    Underway evaluator (visit seen pending work.required).1 (visit seen pending work.required).2
      (done ++ [(key, work.value)]) := by
  have requires : required evaluator key = work.required := by
    simp only [required, evaluated]
  have inv := before.inv.turn
  rw [requires] at inv
  obtain ⟨fresh, visited, distinct, mem_fresh⟩ := visit_eq seen pending work.required
  rw [visited] at inv ⊢
  refine ⟨?_, ?_, inv, fun entry mem => ?_⟩
  · rw [reverse_append, reverse_reverse, before.order]
    simp
  · refine nodup_append'.mpr ⟨nodup_reverse.mpr distinct, before.once, fun k new old => ?_⟩
    exact ((mem_fresh k).mp (mem_reverse.mp new)).2 old
  · rcases mem_append.mp mem with old | new
    · exact before.valued entry old
    · rw [mem_singleton.mp new]
      exact ⟨work, evaluated, rfl⟩

/-- What a traversal that succeeds returns: the marked keys in their order, closed under required work. -/
theorem traverse_ok {final : List (K × T)} (before : Underway evaluator seen pending done)
    (ended : traverse evaluator fuel seen pending done = some (.ok final)) :
    Underway evaluator (explore (required evaluator) fuel seen pending) [] final := by
  induction fuel generalizing seen pending done with
  | zero =>
    cases pending with
    | nil => cases ended; exact before
    | cons key pending => cases ended
  | succ fuel ih =>
    cases pending with
    | nil => cases ended; exact before
    | cons key pending =>
      rw [traverse] at ended
      cases evaluated : evaluator key with
      | error error => rw [evaluated] at ended; cases ended
      | ok work =>
        rw [evaluated] at ended
        have requires : required evaluator key = work.required := by
          simp only [required, evaluated]
        rw [explore, requires]
        exact ih (before.turn evaluated) ended

/-- What is marked stays, in its order. -/
theorem explore_extends (next : K → List K) (fuel : Nat) (seen pending : List K) :
    ∃ fresh, (explore next fuel seen pending).reverse = seen.reverse ++ fresh := by
  induction fuel generalizing seen pending with
  | zero => exact ⟨[], (append_nil _).symm⟩
  | succ fuel ih =>
    cases pending with
    | nil => exact ⟨[], (append_nil _).symm⟩
    | cons key pending =>
      obtain ⟨fresh, visited, _⟩ := visit_eq seen pending (next key)
      obtain ⟨later, eq⟩ := ih (visit seen pending (next key)).1 (visit seen pending (next key)).2
      refine ⟨fresh ++ later, ?_⟩
      rw [explore, eq, visited, reverse_append, reverse_reverse, append_assoc]

/-- **A traversal that fails** names the first key, in the order of scheduling, whose evaluation fails. -/
theorem traverse_error {key : K} {error : E} (before : Underway evaluator seen pending done)
    (ended : traverse evaluator fuel seen pending done = some (.error (key, error))) :
    evaluator key = .error error ∧ ∃ earlier later,
      (explore (required evaluator) fuel seen pending).reverse = earlier ++ key :: later ∧
        ∀ k ∈ earlier, ∃ work, evaluator k = .ok work := by
  induction fuel generalizing seen pending done with
  | zero => cases pending <;> cases ended
  | succ fuel ih =>
    cases pending with
    | nil => cases ended
    | cons head pending =>
      rw [traverse] at ended
      cases evaluated : evaluator head with
      | error failure =>
        rw [evaluated] at ended
        cases ended
        obtain ⟨fresh, eq⟩ := explore_extends (required evaluator) (fuel + 1) seen (key :: pending)
        refine ⟨evaluated, done.map Prod.fst, pending ++ fresh, ?_, fun k mem => ?_⟩
        · rw [eq, before.order, append_assoc, cons_append]
        · obtain ⟨entry, among, rfl⟩ := mem_map.mp mem
          obtain ⟨work, ok, _⟩ := before.valued entry among
          exact ⟨work, ok⟩
      | ok work =>
        rw [evaluated] at ended
        have requires : required evaluator head = work.required := by
          simp only [required, evaluated]
        rw [explore, requires]
        exact ih (before.turn evaluated) ended

theorem underway_start (evaluator : K → Except E (BatchWork K T)) (roots : List K) :
    Underway evaluator (visit [] [] roots).1 (visit [] [] roots).2 [] := by
  obtain ⟨fresh, visited, distinct, _⟩ := visit_eq [] [] roots
  rw [visited]
  simp only [append_nil, nil_append]
  refine ⟨?_, nodup_reverse.mpr distinct, ⟨fun k mem => mem_reverse.mpr mem, ?_⟩, nofun⟩
  · rw [reverse_reverse, map_nil, nil_append]
  · intro k mem fresh'
    exact absurd (mem_reverse.mp mem) fresh'

theorem mem_start {key : K} : key ∈ (visit [] [] roots).1 ↔ key ∈ roots := by
  obtain ⟨fresh, visited, _, mem_fresh⟩ := visit_eq [] [] roots
  rw [visited, append_nil, mem_reverse, mem_fresh]
  exact and_iff_left not_mem_nil

/-! ## 2. A wave is as many turns -/

/-- What a wave schedules, on the lists of the traversal. -/
def visitWave (seen pending : List K) (completed : List (K × BatchWork K T)) : List K × List K :=
  completed.foldl (fun marks item => visit marks.1 marks.2 item.2.required) (seen, pending)

/-- The entries that a wave appends. -/
def values (completed : List (K × BatchWork K T)) : List (K × T) :=
  completed.map fun item => (item.1, item.2.value)

theorem visitWave_append (seen before pending : List K) (completed : List (K × BatchWork K T)) :
    visitWave seen (before ++ pending) completed =
      ((visitWave seen pending completed).1, before ++ (visitWave seen pending completed).2) := by
  induction completed generalizing seen pending with
  | nil => rfl
  | cons item completed ih =>
    simp only [visitWave, foldl_cons]
    rw [visit_append]
    exact ih _ _

/-- **The traversal across items that all succeed.** -/
theorem traverse_wave {seen pending : List K} {done : List (K × T)} {completed : List (K × BatchWork K T)}
    (evaluated : ∀ item ∈ completed, evaluator item.1 = .ok item.2) (fuel : Nat) :
    traverse evaluator (fuel + completed.length) seen (completed.map Prod.fst ++ pending) done =
      traverse evaluator fuel (visitWave seen pending completed).1 (visitWave seen pending completed).2
        (done ++ values completed) := by
  induction completed generalizing seen pending done with
  | nil => simp [visitWave, values]
  | cons item completed ih =>
    have here := evaluated item (.head _)
    rw [length_cons, ← Nat.add_assoc, map_cons, cons_append, traverse, here]
    simp only
    rw [visit_append, ih fun other mem => evaluated other (mem_cons_of_mem _ mem)]
    simp [visitWave, foldl_cons, values, map_cons, append_assoc]

/-! ## 3. The plan -/

theorem schedule_eq {seen : List K} (same : plan.seen = seen.toFinset) (keys : List K) :
    keys.foldl BatchPlan.schedule plan =
      ⟨(visit seen plan.ready keys).1.toFinset, (visit seen plan.ready keys).2, plan.completed⟩ := by
  induction keys generalizing plan seen with
  | nil =>
    obtain ⟨_, ready, completed⟩ := plan
    cases same
    rfl
  | cons key keys ih =>
    rw [foldl_cons, visit]
    by_cases marked : key ∈ seen
    · have : plan.schedule key = plan := if_pos (by rw [same]; exact mem_toFinset.mpr marked)
      rw [this, if_pos marked]
      exact ih same
    · have : plan.schedule key = ⟨insert key plan.seen, plan.ready ++ [key], plan.completed⟩ :=
        if_neg (by rw [same]; exact fun mem => marked (mem_toFinset.mp mem))
      rw [this, if_neg marked]
      exact @ih ⟨insert key plan.seen, plan.ready ++ [key], plan.completed⟩ (key :: seen)
        (by rw [toFinset_cons, same])

theorem new_eq (roots : List K) : (BatchPlan.new roots : BatchPlan K T) =
    ⟨(visit [] [] roots).1.toFinset, (visit [] [] roots).2, []⟩ :=
  @schedule_eq K T _ ⟨∅, [], []⟩ [] rfl roots

theorem completeWave_eq {seen : List K} (same : plan.seen = seen.toFinset)
    (completed : List (K × BatchWork K T)) : plan.completeWave completed =
      ⟨(visitWave seen plan.ready completed).1.toFinset, (visitWave seen plan.ready completed).2,
        plan.completed ++ values completed⟩ := by
  induction completed generalizing plan seen with
  | nil =>
    obtain ⟨_, ready, completed⟩ := plan
    simp only [BatchPlan.completeWave, visitWave, values, foldl_nil, map_nil, append_nil]
    simp only at same
    rw [same]
  | cons item completed ih =>
    have step : plan.completeItem item =
      ⟨(visit seen plan.ready item.2.required).1.toFinset, (visit seen plan.ready item.2.required).2,
        plan.completed ++ [(item.1, item.2.value)]⟩ :=
      @schedule_eq K T _ ⟨plan.seen, plan.ready, plan.completed ++ [(item.1, item.2.value)]⟩ seen same _
    have rest := @ih (plan.completeItem item) (visit seen plan.ready item.2.required).1 (by rw [step])
    refine rest.trans ?_
    rw [step]
    simp [visitWave, foldl_cons, values, map_cons, append_assoc]

/-! ## 4. What a wave does -/

theorem collect_entered (entering : Nat → Option (FactQueryError X)) (operation : Nat → T)
    (allowed : ∀ index failure, entering index = some failure → failing failure) (indices : List Nat) :
    (∃ failure, failing failure ∧
       (indices.map fun index => runWithEvaluations (entering index) (operation index)).mapM id = .error failure) ∨
      (indices.map fun index => runWithEvaluations (entering index) (operation index)).mapM id =
        .ok (indices.map operation) := by
  induction indices with
  | nil => exact .inr rfl
  | cons index indices ih =>
    rw [map_cons, mapM_cons]
    cases entered : entering index with
    | some failure => exact .inl ⟨failure, allowed index failure entered, rfl⟩
    | none =>
      rcases ih with ⟨failure, fails, eq⟩ | eq
      · exact .inl ⟨failure, fails, by rw [eq]; rfl⟩
      · exact .inr (by rw [eq]; rfl)

/-- The runtime's `map_indexed`: a failure, or the values in the order of the indices. -/
theorem runtimeMapIndexed_eq {len : Nat} {operation : Nat → T} {log : List Nat}
    {outcome : Except (Stop (FactQueryError X)) (List T)}
    (run : RuntimeMapIndexed workerCount len failing operation log outcome) :
    (∃ failure, failing failure ∧ outcome = .error (.failed failure)) ∨
      outcome = .ok ((List.range len).map operation) := by
  cases run with
  | captureFails fails => exact .inl ⟨_, fails, rfl⟩
  | map entering allowed run =>
    rcases mapIndexed_eq run with ⟨failure, fails, rfl⟩ | ⟨rfl, _⟩
    · exact .inl ⟨failure, fails, rfl⟩
    · rcases collect_entered entering operation allowed (List.range len) with ⟨failure, fails, eq⟩ | eq
      · exact .inl ⟨failure, fails, by simp only [collectResults, eq]⟩
      · exact .inr (by simp only [collectResults, eq])

/-- An interruption: the token was cancelled, or the scheduler failed. -/
def Interrupted (failing : FactQueryError X → Prop) (cancelled : Prop) : Halt K E X → Prop
  | .completion .cancelled => cancelled ∨ failing .cancelled
  | .completion (.scheduler error) => failing error
  | _ => False

/-- How the items of a wave end: interrupted, at the first item that failed, or all of them completed. -/
inductive Ended (failing : FactQueryError X → Prop) (cancelled : Prop)
  (evaluator : K → Except E (BatchWork K T)) (wave : List K) :
  Except (Halt K E X) (List (K × BatchWork K T)) → Prop where
  | interrupted {halt : Halt K E X} (by_ : Interrupted failing cancelled halt) :
    Ended failing cancelled evaluator wave (.error halt)
  | failed {completed : List (K × BatchWork K T)} {key : K} {error : E} {later : List K}
    (split : wave = completed.map Prod.fst ++ key :: later)
    (evaluated : ∀ item ∈ completed, evaluator item.1 = .ok item.2) (fails : evaluator key = .error error) :
    Ended failing cancelled evaluator wave (.error (.completion (.evaluation key error)))
  | completed {completed : List (K × BatchWork K T)} (all : wave = completed.map Prod.fst)
    (evaluated : ∀ item ∈ completed, evaluator item.1 = .ok item.2) :
    Ended failing cancelled evaluator wave (.ok completed)

theorem completeItems_ended {items : List (K × Item K T E X)} (each : ∀ item ∈ items,
    cancelled ∧ item.2 = some (.error .cancelled) ∨ item.2 = some (.ok (evaluator item.1))) :
    Ended failing cancelled evaluator (items.map Prod.fst) (completeItems items) := by
  induction items with
  | nil => exact .completed rfl nofun
  | cons item items ih =>
    obtain ⟨key, answer⟩ := item
    have rest := ih fun other mem => each other (.tail _ mem)
    have answered := each _ (.head _)
    simp only at answered
    rcases answered with ⟨token, rfl⟩ | rfl
    · exact .interrupted (.inl token)
    · cases evaluated : evaluator key with
      | error error =>
        exact .failed rfl (fun _ mem => absurd mem not_mem_nil) evaluated
      | ok work =>
        have cons : ∀ {completed : List (K × BatchWork K T)}, (∀ item ∈ completed, evaluator item.1 = .ok item.2) →
          ∀ item ∈ (key, work) :: completed, evaluator item.1 = .ok item.2 :=
          fun others => forall_mem_cons.mpr ⟨evaluated, others⟩
        rw [map_cons, completeItems]
        generalize completeItems items = received at rest ⊢
        cases rest with
        | interrupted by_ => exact .interrupted by_
        | failed split others fails =>
          rw [split]
          exact .failed rfl (cons others) fails
        | completed all others =>
          rw [all]
          exact .completed rfl (cons others)

/-- **A wave that is mapped** ends in one of the three ways, whatever the workers did: it does not panic. -/
theorem receiveWave_ended {wave : List K} {checks : Nat → Bool} (token : ∀ index, checks index = true → cancelled)
    {log : List Nat} {outcome : Except (Stop (FactQueryError X)) (List (Item K T E X))}
    (run : RuntimeMapIndexed workerCount wave.length failing (evaluateItem evaluator wave checks) log outcome) :
    Ended failing cancelled evaluator wave (receiveWave wave outcome) := by
  rcases runtimeMapIndexed_eq run with ⟨failure, fails, rfl⟩ | rfl
  · cases failure with
    | cancelled => exact .interrupted (.inr fails)
    | other failure => exact .interrupted fails
  · generalize operation : (evaluateItem evaluator wave checks : Nat → Item K T E X) = evaluate
    have keys : (wave.zip ((List.range wave.length).map evaluate)).map Prod.fst = wave :=
      map_fst_zip (by simp)
    have ended := @completeItems_ended K T E X _ failing cancelled evaluator
      (wave.zip ((List.range wave.length).map evaluate)) ?_
    · rw [keys] at ended
      exact ended
    · subst operation
      rintro ⟨key, answer⟩ mem
      obtain ⟨index, bound, eq⟩ := getElem_of_mem mem
      rw [getElem_zip, Prod.mk.injEq] at eq
      obtain ⟨rfl, rfl⟩ := eq
      rw [length_zip] at bound
      simp only [getElem_map, getElem_range, evaluateItem]
      by_cases found : checks index = true
      · rw [if_pos found]
        exact .inl ⟨token index found, rfl⟩
      · rw [if_neg found, getElem?_eq_getElem (by omega)]
        exact .inr rfl

/-- **What a turn does**: it is interrupted, or its wave fails or completes as the evaluator says. -/
theorem wave_spec {result : Except (Halt K E X) (BatchPlan K T)}
    (wave : Wave workerCount failing cancelled evaluator plan result) :
    (∃ halt, Interrupted failing cancelled halt ∧ result = .error halt) ∨
      ∃ received : Except (Halt K E X) (List (K × BatchWork K T)),
        Ended failing cancelled evaluator plan.ready received ∧ plan.ready ≠ [] ∧
          result = received.map (BatchPlan.completeWave ⟨plan.seen, [], plan.completed⟩) := by
  have taken : ∀ {keys : List K} {rest : BatchPlan K T}, plan.takeWave = some (keys, rest) →
    plan.ready ≠ [] ∧ keys = plan.ready ∧ rest = ⟨plan.seen, [], plan.completed⟩ := by
    intro keys rest takes
    unfold BatchPlan.takeWave at takes
    split at takes
    · cases takes
    · rename_i ready
      cases takes
      exact ⟨ready, rfl, rfl⟩
  cases wave with
  | cancelledBefore takes token | cancelledAfter takes checks run received token =>
    exact .inl ⟨.completion .cancelled, .inl token, rfl⟩
  | stops takes checks token run stopped =>
    obtain ⟨ready, rfl, rfl⟩ := taken takes
    exact .inr ⟨_, receiveWave_ended token run, ready, by rw [stopped]; rfl⟩
  | completes takes checks token run received =>
    obtain ⟨ready, rfl, rfl⟩ := taken takes
    exact .inr ⟨_, receiveWave_ended token run, ready, by rw [received]; rfl⟩

/-! ## 5. The batch -/

/-- How a batch reports what the traversal returns. -/
def report : Except (K × E) (List (K × T)) → Except (Halt K E X) (List (K × T))
  | .error (key, error) => .error (.completion (.evaluation key error))
  | .ok completed => .ok completed

/-- **A batch that is not interrupted returns what the traversal returns.** -/
theorem completeBatch_eq {outcome : Except (Halt K E X) (List (K × T))}
    (run : CompleteBatch workerCount failing cancelled evaluator plan outcome) (same : plan.seen = seen.toFinset) :
    (∃ halt, Interrupted failing cancelled halt ∧ outcome = .error halt) ∨
      ∃ fuel result, traverse evaluator fuel seen plan.ready plan.completed = some result ∧
        outcome = report result := by
  induction run generalizing seen with
  | @done plan idle =>
    have empty : plan.ready = [] := by
      by_contra ready
      rw [BatchPlan.takeWave, if_neg ready] at idle
      cases idle
    exact .inr ⟨0, .ok plan.completed, by rw [empty]; rfl, rfl⟩
  | @stops plan halt wave =>
    rcases wave_spec wave with interrupted | ⟨received, ended, _, eq⟩
    · obtain ⟨halt', by_, ⟨⟩⟩ := interrupted
      exact .inl ⟨halt, by_, rfl⟩
    · cases ended with
      | interrupted by_ => cases eq; exact .inl ⟨_, by_, rfl⟩
      | completed all evaluated => cases eq
      | @failed completed key error later split evaluated fails =>
        cases eq
        refine .inr ⟨1 + completed.length, .error (key, error), ?_, rfl⟩
        rw [split, traverse_wave evaluated]
        have := visitWave_append seen (key :: later) [] completed
        rw [append_nil] at this
        rw [this, cons_append, traverse, fails]
  | @wave plan plan' outcome wave rest ih =>
    rcases wave_spec wave with ⟨_, _, ⟨⟩⟩ | ⟨received, ended, _, eq⟩
    cases ended with
    | interrupted by_ => cases eq
    | failed split evaluated fails => cases eq
    | @completed completed all evaluated =>
      cases eq
      have next := @completeWave_eq K T _ ⟨plan.seen, [], plan.completed⟩ seen same completed
      rw [next] at ih
      rcases ih rfl with interrupted | ⟨fuel, result, ended, eq⟩
      · exact .inl interrupted
      · refine .inr ⟨fuel + completed.length, result, ?_, eq⟩
        have turns := @traverse_wave K T E _ evaluator seen [] plan.completed completed evaluated fuel
        rw [append_nil, ← all] at turns
        exact turns.trans ended

/-! ## 6. Finite closures -/

/-- A finite set of keys that holds the roots and the work that its keys require. -/
structure Closed (evaluator : K → Except E (BatchWork K T)) (roots all : List K) : Prop where
  roots : ∀ key ∈ roots, key ∈ all
  required : ∀ key ∈ all, ∀ next ∈ required evaluator key, next ∈ all

/-- A turn of the traversal uses up what can still be scheduled. -/
theorem room_visit {all seen pending keys : List K} (within : ∀ key ∈ keys, key ∈ all) :
    room all (visit seen pending keys).1 + (visit seen pending keys).2.length ≤ room all seen + pending.length ∧
      ∀ key ∈ (visit seen pending keys).2, key ∈ pending ∨ key ∈ all := by
  obtain ⟨fresh, visited, distinct, mem_fresh⟩ := visit_eq seen pending keys
  have less := Lib.Worklist.room_append fresh distinct (fun key mem => within key ((mem_fresh key).mp mem).1)
    fun key mem => ((mem_fresh key).mp mem).2
  rw [visited]
  simp only [length_append]
  refine ⟨by omega, fun key mem => ?_⟩
  exact (mem_append.mp mem).imp_right fun new => within key ((mem_fresh key).mp new).1

/-- **The traversal of a finite closure comes to an end.** -/
theorem traverse_total (closed : Closed evaluator roots all) (inside : ∀ key ∈ pending, key ∈ all)
    (enough : room all seen + pending.length ≤ fuel) :
    ∃ result, traverse evaluator fuel seen pending done = some result := by
  induction fuel generalizing seen pending done with
  | zero =>
    obtain rfl : pending = [] := eq_nil_of_length_eq_zero (by omega)
    exact ⟨_, rfl⟩
  | succ fuel ih =>
    cases pending with
    | nil => exact ⟨_, rfl⟩
    | cons key pending =>
      rw [traverse]
      cases evaluated : evaluator key with
      | error error => exact ⟨_, rfl⟩
      | ok work =>
        have within : ∀ next ∈ work.required, next ∈ all := by
          intro next mem
          refine closed.required key (inside key (.head _)) next ?_
          simpa only [required, evaluated] using mem
        obtain ⟨less, kept⟩ := @room_visit K _ all seen pending work.required within
        rw [length_cons] at enough
        refine ih (fun next mem => ?_) (by omega)
        exact (kept next mem).elim (fun old => inside next (mem_cons_of_mem key old)) id

theorem visitWave_room {completed : List (K × BatchWork K T)}
    (within : ∀ item ∈ completed, ∀ next ∈ item.2.required, next ∈ all) (seen pending : List K) :
    room all (visitWave seen pending completed).1 + (visitWave seen pending completed).2.length ≤
      room all seen + pending.length ∧ ∀ key ∈ (visitWave seen pending completed).2, key ∈ pending ∨ key ∈ all := by
  induction completed generalizing seen pending with
  | nil => exact ⟨Nat.le_refl _, fun _ mem => .inl mem⟩
  | cons item completed ih =>
    obtain ⟨first, kept⟩ := @room_visit K _ all seen pending item.2.required
      (within item (.head _))
    obtain ⟨rest, later⟩ := ih (fun other mem => within other (mem_cons_of_mem item mem))
      (visit seen pending item.2.required).1 (visit seen pending item.2.required).2
    refine ⟨rest.trans first, fun key mem => ?_⟩
    exact (later key mem).elim (kept key) .inr

/-- **No sequence of waves goes on for ever** when the closure is finite. -/
theorem waves_acc {all roots : List K} (closed : Closed evaluator roots all)
    (inside : ∀ key ∈ plan.ready, key ∈ all) :
    Acc (fun later earlier => Wave workerCount failing cancelled evaluator earlier (.ok later)) plan := by
  obtain ⟨seen, same⟩ : ∃ seen : List K, plan.seen = seen.toFinset := ⟨plan.seen.toList, by simp⟩
  generalize measure : room all seen + plan.ready.length = left
  induction left using Nat.strongRecOn generalizing plan seen with
  | ind left ih =>
    refine .intro _ fun later wave => ?_
    rcases wave_spec wave with ⟨_, _, ⟨⟩⟩ | ⟨received, ended, ready, eq⟩
    cases ended with
    | interrupted by_ => cases eq
    | failed split evaluated fails => cases eq
    | @completed completed all' evaluated =>
      cases eq
      have next := @completeWave_eq K T _ ⟨plan.seen, [], plan.completed⟩ seen same completed
      have within : ∀ item ∈ completed, ∀ key ∈ item.2.required, key ∈ all := by
        intro item mem key requires
        have among : item.1 ∈ plan.ready := by
          rw [all']
          exact mem_map_of_mem mem
        refine closed.required item.1 (inside item.1 among) key ?_
        simpa only [required, evaluated item mem] using requires
      obtain ⟨less, kept⟩ := visitWave_room within seen []
      have some_ : 0 < plan.ready.length := length_pos_iff.mpr ready
      rw [length_nil] at less
      rw [next]
      refine ih _ ?_ (fun key mem => (kept key mem).resolve_left not_mem_nil) _ rfl rfl
      simp only
      omega

/-- There is always a next wave while keys are ready. -/
theorem wave_exists (ready : plan.ready ≠ []) :
    ∃ result, Wave workerCount failing cancelled evaluator plan result := by
  have takes : plan.takeWave = some (plan.ready, ⟨plan.seen, [], plan.completed⟩) := if_neg ready
  obtain ⟨log, run⟩ := @mapIndexed_exists (Except (FactQueryError X) (Item K T E X)) (FactQueryError X)
    plan.ready.length workerCount failing
    fun index => runWithEvaluations none (evaluateItem evaluator plan.ready (fun _ => false) index)
  have mapped : RuntimeMapIndexed workerCount plan.ready.length failing
    (evaluateItem evaluator plan.ready fun _ => false) log _ :=
    .map (fun _ => none) nofun run
  generalize outcome : collectResults _ = answer at mapped
  cases received : receiveWave plan.ready answer with
  | error halt => exact ⟨_, .stops takes (fun _ => false) nofun mapped received⟩
  | ok completed => exact ⟨_, .completes takes (fun _ => false) nofun mapped received⟩

/-- **A batch of a finite closure has an outcome.** -/
theorem completeBatch_exists (closed : Closed evaluator roots all) (inside : ∀ key ∈ plan.ready, key ∈ all) :
    ∃ outcome, CompleteBatch workerCount failing cancelled evaluator plan outcome := by
  have acc := @waves_acc K T E X _ workerCount failing cancelled evaluator plan all roots closed inside
  clear inside
  induction acc with
  | intro plan _ ih =>
    by_cases idle : plan.ready = []
    · exact ⟨_, .done (if_pos idle)⟩
    · obtain ⟨result, wave⟩ := @wave_exists K T E X _ workerCount failing cancelled evaluator plan idle
      cases result with
      | error halt => exact ⟨_, .stops wave⟩
      | ok later =>
        obtain ⟨outcome, rest⟩ := ih later wave
        exact ⟨outcome, .wave wave rest⟩

/-! ## 7. Schedule independence -/

def Requires (evaluator : K → Except E (BatchWork K T)) (key next : K) : Prop := next ∈ required evaluator key

/-- The keys of a traversal that succeeds are the closure of the roots. -/
theorem sequential_closure {completed : List (K × T)}
    (ended : sequential evaluator fuel roots = some (.ok completed)) (key : K) :
    key ∈ completed.map Prod.fst ↔ ∃ root ∈ roots, ReflTransGen (Requires evaluator) root key := by
  have last := traverse_ok (underway_start evaluator roots) ended
  have order := last.order
  rw [append_nil] at order
  rw [← order, mem_reverse]
  constructor
  · refine Lib.Worklist.explore_sound
      (P := fun key => ∃ root ∈ roots, ReflTransGen (Requires evaluator) root key)
      (fun k next reached requires => ?_) fuel (fun k mem => ?_) (fun k mem => ?_) key
    · obtain ⟨root, mem, chain⟩ := reached
      exact ⟨root, mem, chain.tail requires⟩
    · exact ⟨k, mem_start.mp ((underway_start evaluator roots).inv.marked k mem), .refl⟩
    · exact ⟨k, mem_start.mp mem, .refl⟩
  · rintro ⟨root, mem, chain⟩
    induction chain with
    | refl => exact Lib.Worklist.subset_explore _ fuel _ _ root (mem_start.mpr mem)
    | tail _ requires ih => exact last.inv.closed _ ih not_mem_nil _ requires

/-- **Batch completion is schedule independent.** Whatever the worker count and the order in which the workers
take their steps, a batch that is neither cancelled nor hit by a failure of the scheduler returns what the
sequential traversal returns: each key of the closure once, in the order in which it is scheduled, or the
failing key that comes first in that order. A finite closure is completed after finitely many waves. Nested work
evaluates no index twice, and every index when no lane fails; its lanes come to an end. -/
theorem batch_schedule_independent (evaluator : K → Except E (BatchWork K T)) (roots : List K) :
    (∀ (workerCount : Nat) (failing : FactQueryError X → Prop) (cancelled : Prop)
      (outcome : Except (Halt K E X) (List (K × T))),
      CompleteBatch workerCount failing cancelled evaluator (BatchPlan.new roots) outcome →
      (∃ halt, Interrupted failing cancelled halt ∧ outcome = .error halt) ∨
        ∃ fuel result, sequential evaluator fuel roots = some result ∧ outcome = report result) ∧
    (∀ fuel fuel' result result', sequential evaluator fuel roots = some result →
      sequential evaluator fuel' roots = some result' → result = result') ∧
    (∀ fuel completed, sequential evaluator fuel roots = some (.ok completed) →
      completed.map Prod.fst = scheduled evaluator fuel roots ∧ (completed.map Prod.fst).Nodup ∧
        (∀ key, key ∈ completed.map Prod.fst ↔ ∃ root ∈ roots, ReflTransGen (Requires evaluator) root key) ∧
        ∀ entry ∈ completed, Valued evaluator entry) ∧
    (∀ fuel key error, sequential evaluator fuel roots = some (.error (key, error)) →
      evaluator key = .error error ∧ ∃ earlier later, scheduled evaluator fuel roots = earlier ++ key :: later ∧
          ∀ k ∈ earlier, ∃ work, evaluator k = .ok work) ∧ (∀ all, Closed evaluator roots all →
      (∃ fuel result, sequential evaluator fuel roots = some result) ∧
        ∀ (workerCount : Nat) (failing : FactQueryError X → Prop) (cancelled : Prop),
          Acc (fun later earlier => Wave workerCount failing cancelled evaluator earlier (.ok later))
            (BatchPlan.new roots) ∧
            ∃ outcome, CompleteBatch workerCount failing cancelled evaluator (BatchPlan.new roots) outcome) ∧
    (∀ (T F : Type) (len workerCount : Nat) (failing : F → Prop) (evaluate : Nat → Except F T) (log : List Nat)
      (outcome : Except F (Nat → Option T)), Nested len workerCount failing evaluate 0 (fun _ => none) log outcome →
      log.Nodup ∧ ((∀ failure, ¬ Explained len failing evaluate failure) →
        ∃ results, outcome = .ok results ∧ log.Perm (List.range len) ∧
          ∀ index < len, Placed evaluate results index)) ∧
    (∀ (T F : Type) (len limit : Nat) (evaluate : Nat → Except F T), WellFounded fun later earlier : State T F =>
        ∃ log, Step len limit (fun _ => False) evaluate earlier log later) := by
  refine ⟨fun workerCount failing cancelled outcome run => ?_, fun fuel fuel' result result' first second => ?_,
    fun fuel completed ended => ?_, fun fuel key error ended => traverse_error (underway_start evaluator roots) ended,
    fun all closed => ?_, fun T F len workerCount failing evaluate log outcome run => ?_,
    fun T F => calm_wellFounded⟩
  · have same : (BatchPlan.new roots : BatchPlan K T).seen = (visit [] [] roots).1.toFinset := by rw [new_eq]
    have traversed := completeBatch_eq run same
    rw [new_eq] at traversed
    exact traversed
  · have first := traverse_mono (Nat.le_max_left fuel fuel') first
    have second := traverse_mono (Nat.le_max_right fuel fuel') second
    exact Option.some.inj (first.symm.trans second)
  · have last := traverse_ok (underway_start evaluator roots) ended
    have order := last.order
    rw [append_nil] at order
    refine ⟨order.symm, ?_, sequential_closure ended, last.valued⟩
    rw [← order]
    exact nodup_reverse.mpr last.once
  · have inside : ∀ key ∈ (visit [] [] roots).2, key ∈ all := fun key mem =>
      closed.roots key (mem_start.mp ((underway_start evaluator roots).inv.marked key mem))
    refine ⟨⟨_, traverse_total closed inside (Nat.le_refl _)⟩, fun workerCount failing cancelled => ?_⟩
    have ready : (BatchPlan.new roots : BatchPlan K T).ready = (visit [] [] roots).2 := by rw [new_eq]
    rw [← ready] at inside
    exact ⟨waves_acc closed inside, completeBatch_exists closed inside⟩
  · obtain ⟨nodup, _, ok, failed⟩ := nested_spec (Nat.zero_le len) nofun run
    refine ⟨nodup, fun calm => ?_⟩
    cases outcome with
    | error failure => exact absurd (failed failure rfl) (calm failure)
    | ok results => exact ⟨results, rfl, ok results rfl⟩

/-- Two keys require the same work, a third requires a key that is done. -/
example :
  sequential (fun key => (.ok ⟨key * 10, if key = 1 then [2, 4] else if key = 3 then [2, 5] else
    if key = 4 then [6, 1] else []⟩ : Except Unit (BatchWork Nat Nat))) 9 [1, 3, 1] =
    some (.ok [(1, 10), (3, 30), (2, 20), (4, 40), (5, 50), (6, 60)]) := by
  decide +kernel

end Bray.Batch
