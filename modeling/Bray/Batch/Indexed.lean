/-
  File:      Bray/Batch/Indexed.lean
  Subject:   EVERY INDEX ONCE: what a run of the lanes evaluates, whatever the order of their steps.

  **The invariant** `Account`: the indices evaluated so far and the indices that lanes hold are together the
  indices that were claimed, `0 .. min next len`, each once; while no failure is recorded, every evaluated
  index has its result in its place, and either a lane is left or all indices are claimed.

  **The consequences.** Lanes that return without a failure have evaluated every index exactly once
  (`nested_ok`); `map_indexed` yields the operation's values in the order of the indices, or a failure of the
  scheduler (`mapIndexed_eq`). No run of lanes that do not fail goes on for ever (`calm_wellFounded`).
-/
import Bray.Batch.Lanes
import Mathlib

namespace Bray.Batch

open List


variable {T F : Type} {len limit workerCount : Nat} {failing : F → Prop} {evaluate : Nat → Except F T}

/-! ## 1. The account of the indices -/

/-- The indices that lanes hold. -/
def inFlight (lanes : List Lane) : List Nat := lanes.flatMap evaluates

theorem inFlight_split (before : List Lane) (lane : Lane) (after : List Lane) :
    inFlight (before ++ lane :: after) = inFlight before ++ evaluates lane ++ inFlight after := by
  simp [inFlight, flatMap_append, flatMap_cons]

theorem inFlight_replaced (before lanes after : List Lane) :
    inFlight (before ++ lanes ++ after) = inFlight before ++ inFlight lanes ++ inFlight after := by
  simp [inFlight, flatMap_append]

/-- The place of an index holds what its evaluation returned. -/
def Placed (evaluate : Nat → Except F T) (results : Nat → Option T) (index : Nat) : Prop :=
  ∃ value, evaluate index = .ok value ∧ results index = some value

/-- The recorded failure is one of the scheduler, or of an index. -/
def Explained (len : Nat) (failing : F → Prop) (evaluate : Nat → Except F T) (failure : F) : Prop :=
  failing failure ∨ ∃ index < len, evaluate index = .error failure

/-- **The invariant of the lanes**, after the evaluations of `log`. -/
structure Account (len : Nat) (failing : F → Prop) (evaluate : Nat → Except F T) (log : List Nat)
  (state : State T F) : Prop where
  claimed : (log ++ inFlight state.lanes).Perm (List.range (min state.shared.next len))
  placed : state.shared.error = none → ∀ index ∈ log, Placed evaluate state.shared.results index
  manned : state.shared.error = none → state.lanes ≠ [] ∨ len ≤ state.shared.next
  explained : ∀ entry, state.shared.error = some entry → Explained len failing evaluate entry.2

theorem recorded_explained {current : Option (Nat × F)} {item : Nat} {failure : F}
    (before : ∀ entry, current = some entry → Explained len failing evaluate entry.2)
    (now : Explained len failing evaluate failure) :
    ∀ entry, recordSchedulerError current item failure = some entry → Explained len failing evaluate entry.2 := by
  intro entry recorded
  unfold recordSchedulerError at recorded
  split at recorded
  · cases recorded
    exact now
  · split at recorded
    · cases recorded
      exact now
    · exact before entry recorded

/-- **What a turn does to the account**: what the lane held is evaluated, what its successors hold is claimed;
a lane goes only when all indices are claimed or its failure is recorded. -/
structure TurnSpec (len : Nat) (failing : F → Prop) (evaluate : Nat → Except F T) (lane : Lane)
  (shared shared' : Shared T F) (lanes : List Lane) : Prop where
  claims : (inFlight lanes = [] ∧ min shared'.next len = min shared.next len) ∨
    (evaluates lane = [] ∧ inFlight lanes = [shared.next] ∧ shared.next < len ∧ shared'.next = shared.next + 1)
  places : shared'.error = none → shared.error = none ∧
    (∀ index ∈ evaluates lane, Placed evaluate shared'.results index) ∧
    ∀ index, Placed evaluate shared.results index → Placed evaluate shared'.results index
  leaves : shared'.error = none → lanes ≠ [] ∨ len ≤ shared'.next
  advances : shared.next ≤ shared'.next
  explains : (∀ entry, shared.error = some entry → Explained len failing evaluate entry.2) →
    (∀ index ∈ evaluates lane, index < len) →
    ∀ entry, shared'.error = some entry → Explained len failing evaluate entry.2

variable {shared : Shared T F}

/-- A step that only moves the lane on. -/
theorem TurnSpec.moves {lane : Lane} {lanes : List Lane} (holds : evaluates lane = [])
    (none' : inFlight lanes = []) (some' : lanes ≠ []) :
  TurnSpec len failing evaluate lane shared shared lanes where
  claims := .inl ⟨none', rfl⟩
  places quiet := ⟨quiet, by rw [holds]; nofun, fun _ placed => placed⟩
  leaves _ := .inl some'
  advances := Nat.le_refl _
  explains before _ := before

/-- A step that ends in a failure. -/
theorem TurnSpec.fails {lane : Lane} {item : Nat} {failure : F}
    (now : (∀ index ∈ evaluates lane, index < len) → Explained len failing evaluate failure) :
    TurnSpec len failing evaluate lane shared
    { shared with error := recordSchedulerError shared.error item failure } [] where
  claims := .inl ⟨rfl, rfl⟩
  places quiet := absurd quiet (recordSchedulerError_ne_none _ _ _)
  leaves quiet := absurd quiet (recordSchedulerError_ne_none _ _ _)
  advances := Nat.le_refl _
  explains before inside := recorded_explained before (now inside)

variable {index : Nat}

theorem placed_update {value : T} (results : Nat → Option T) (evaluated : evaluate index = .ok value) :
    Placed evaluate (Function.update results index (some value)) index ∧ ∀ other, Placed evaluate results other →
        Placed evaluate (Function.update results index (some value)) other := by
  refine ⟨⟨value, evaluated, Function.update_self ..⟩, ?_⟩
  rintro other ⟨old, was, here⟩
  by_cases same : other = index
  · subst same
    exact ⟨value, evaluated, Function.update_self ..⟩
  · exact ⟨old, was, by rw [Function.update_of_ne same]; exact here⟩

theorem turn_spec (busy : Nat) (answer : Acquired F) (shared : Shared T F) (lane : Lane)
    (allowed : ∀ failure, answer = .failed failure → failing failure) :
    TurnSpec len failing evaluate lane shared (turn len limit busy evaluate answer shared lane).1
      (turn len limit busy evaluate answer shared lane).2 := by
  cases lane with
  | starting =>
    cases answer with
    | failed failure => exact .fails fun _ => .inl (allowed failure rfl)
    | granted => exact .moves rfl rfl (cons_ne_nil _ _)
    | refused => exact .moves rfl rfl (cons_ne_nil _ _)
  | looping =>
    refine .moves rfl ?_ (cons_ne_nil _ _)
    simp only [turn]
    split <;> rfl
  | acquiring =>
    simp only [turn]
    cases answer with
    | failed failure => exact .fails fun _ => .inl (allowed failure rfl)
    | granted =>
      by_cases free : busy < limit
      · simp only [if_pos free]
        exact .moves rfl rfl (cons_ne_nil _ _)
      · simp only [if_neg free]
        exact .moves rfl rfl (cons_ne_nil _ _)
    | refused => exact .moves rfl rfl (cons_ne_nil _ _)
  | claiming =>
    simp only [turn]
    by_cases inside : shared.next < len
    · rw [if_pos inside]
      exact ⟨.inr ⟨rfl, rfl, inside, rfl⟩, fun quiet => ⟨quiet, nofun, fun _ placed => placed⟩,
        fun _ => .inl (cons_ne_nil _ _), Nat.le_succ _, fun before _ => before⟩
    · rw [if_neg inside]
      refine ⟨.inl ⟨rfl, ?_⟩, fun quiet => ⟨quiet, nofun, fun _ placed => placed⟩, fun _ => .inr ?_,
        Nat.le_succ _, fun before _ => before⟩
      · show min (shared.next + 1) len = min shared.next len
        omega
      · show len ≤ shared.next + 1
        omega
  | evaluating index =>
    simp only [turn]
    cases evaluated : evaluate index with
    | ok value =>
      obtain ⟨here, others⟩ := placed_update shared.results evaluated
      refine ⟨.inl ⟨rfl, rfl⟩, fun quiet => ⟨quiet, ?_, others⟩, fun _ => .inl (cons_ne_nil _ _),
        Nat.le_refl _, fun before _ => before⟩
      rintro other (_ | ⟨_, ⟨⟩⟩)
      exact here
    | error failure =>
      exact .fails fun inside => .inr ⟨index, inside index (.head _), evaluated⟩

variable {state state' : State T F} {log : List Nat}

/-- **A step keeps the account.** -/
theorem Step.account {done : List Nat}
    (step : Step len limit failing evaluate state log state') (before : Account len failing evaluate done state) :
    Account len failing evaluate (done ++ log) state' := by
  cases step with
  | turn shared front lane back answer allowed =>
    have spec : TurnSpec len failing evaluate lane shared _ _ :=
      @turn_spec T F len limit failing evaluate ((front ++ lane :: back).countP Lane.holdsSlot) answer shared lane allowed
    generalize Bray.Batch.turn len limit ((front ++ lane :: back).countP Lane.holdsSlot) evaluate answer shared lane =
      next at spec ⊢
    obtain ⟨shared', lanes⟩ := next
    have claimed := before.claimed
    rw [inFlight_split] at claimed
    have inside : ∀ index ∈ evaluates lane, index < len := fun index mem => by
      have := claimed.subset (mem_append_right _ (mem_append_left _ (mem_append_right _ mem)))
      exact (Nat.lt_min.mp (mem_range.mp this)).2
    refine ⟨?_, fun quiet => ?_, fun quiet => ?_, spec.explains before.explained inside⟩
    · rw [inFlight_replaced]
      -- what is evaluated and in flight stays the same, but for the index that is claimed
      have moved : (done ++ evaluates lane ++ (inFlight front ++ inFlight lanes ++ inFlight back)).Perm
        (done ++ (inFlight front ++ evaluates lane ++ inFlight back) ++ inFlight lanes) := by
        rw [perm_iff_count]
        intro index
        simp only [count_append]
        omega
      refine moved.trans ?_
      rcases spec.claims with ⟨none', same⟩ | ⟨_, claims, free, next⟩
      · rw [none', append_nil, same]
        exact claimed
      · have reached : min shared.next len = shared.next := Nat.min_eq_left (Nat.le_of_lt free)
        have now : min (shared.next + 1) len = shared.next + 1 := Nat.min_eq_left free
        rw [claims, next, now, range_succ]
        simp only [reached] at claimed
        exact claimed.append_right _
    · obtain ⟨was, here, others⟩ := spec.places quiet
      intro index mem
      rcases mem_append.mp mem with old | new
      · exact others index (before.placed was index old)
      · exact here index new
    · by_cases gone : front ++ lanes ++ back = []
      · simp only [append_eq_nil_iff] at gone
        exact .inr ((spec.leaves quiet).resolve_left (absurd gone.1.2))
      · exact .inl gone

/-- **A run keeps the account.** -/
theorem Lanes.account {done : List Nat}
    (run : Lanes len limit failing evaluate state log state') (before : Account len failing evaluate done state) :
    Account len failing evaluate (done ++ log) state' := by
  induction run generalizing done with
  | nil state => rwa [append_nil]
  | cons step _ ih =>
    rw [← append_assoc]
    exact ih (step.account before)

/-! ## 2. Nested work -/

variable {results : Nat → Option T}

theorem account_begin (inside : index < len) (placed : ∀ i < index, Placed evaluate results i) :
  Account len failing evaluate (List.range index) (begin index results) where
  claimed := by
    show (List.range index ++ []).Perm (List.range (min index len))
    rw [append_nil, Nat.min_eq_left (Nat.le_of_lt inside)]
  placed _ i mem := placed i (mem_range.mp mem)
  manned _ := .inl (cons_ne_nil _ _)
  explained _ := nofun

/-- What the lanes leave behind: the indices before those where they began and those they evaluated are each
claimed once, and without a failure they are all indices, with their results. -/
theorem lanes_end (inside : index < len) (placed : ∀ i < index, Placed evaluate results i)
    (run : Lanes len limit failing evaluate (begin index results) log ⟨shared, []⟩) :
    (List.range index ++ log).Perm (List.range (min shared.next len)) ∧
      (∀ results', join shared = .ok results' → len ≤ shared.next ∧ ∀ i < len, Placed evaluate results' i) ∧
      ∀ failure, join shared = .error failure → Explained len failing evaluate failure := by
  have account := run.account (account_begin inside placed)
  have claimed := account.claimed
  simp only [inFlight, flatMap_nil, append_nil] at claimed
  refine ⟨claimed, fun results' ok => ?_, fun failure fails => ?_⟩
  · unfold join at ok
    cases quiet : shared.error with
    | some entry => rw [quiet] at ok; cases ok
    | none =>
      rw [quiet] at ok
      cases ok
      have all : len ≤ shared.next := (account.manned quiet).resolve_left (absurd rfl)
      refine ⟨all, fun i lt => account.placed quiet i (claimed.symm.subset ?_)⟩
      exact mem_range.mpr (lt_min (Nat.lt_of_lt_of_le lt all) lt)
  · unfold join at fails
    cases loud : shared.error with
    | none => rw [loud] at fails; cases fails
    | some entry =>
      rw [loud] at fails
      cases fails
      exact account.explained entry loud

/-- **Nested work**: no index is evaluated twice; when it ends without a failure every index was evaluated,
with its result in its place; a failure is one of the scheduler or of an index. -/
theorem nested_spec {outcome : Except F (Nat → Option T)} (start : index ≤ len)
    (placed : ∀ i < index, Placed evaluate results i)
    (run : Nested len workerCount failing evaluate index results log outcome) :
    (List.range index ++ log).Nodup ∧ (∀ i ∈ log, i < len) ∧ (∀ results', outcome = .ok results' →
       (List.range index ++ log).Perm (List.range len) ∧ ∀ i < len, Placed evaluate results' i) ∧
      ∀ failure, outcome = .error failure → Explained len failing evaluate failure := by
  induction run with
  | done reached =>
    obtain rfl := Nat.le_antisymm start reached
    rw [append_nil]
    refine ⟨nodup_range, nofun, ?_, nofun⟩
    rintro _ ⟨⟩
    exact ⟨.refl _, placed⟩
  | acquireFails parallel more fails =>
    rw [append_nil]
    refine ⟨nodup_range, nofun, nofun, ?_⟩
    rintro _ ⟨⟩
    exact .inl fails
  | @alone index results log outcome value inside evaluated rest ih =>
    obtain ⟨here, others⟩ := placed_update results evaluated
    have assoc : List.range (index + 1) ++ log = List.range index ++ index :: log := by
      rw [range_succ, append_assoc, singleton_append]
    rw [← assoc]
    obtain ⟨nodup, bounded, ok, error⟩ := ih inside fun i lt => by
      rcases Nat.lt_succ_iff_lt_or_eq.mp lt with before | rfl
      · exact others i (placed i before)
      · exact here
    refine ⟨nodup, ?_, ok, error⟩
    rintro i (_ | ⟨_, later⟩)
    · exact inside
    · exact bounded i later
  | @aloneFails index results failure inside evaluated =>
    rw [← range_succ]
    refine ⟨nodup_range, ?_, nofun, ?_⟩
    · rintro i (_ | ⟨_, ⟨⟩⟩)
      exact inside
    · rintro _ ⟨⟩
      exact .inr ⟨index, inside, evaluated⟩
  | @lanes index results log shared parallel more run =>
    obtain ⟨claimed, ok, error⟩ := lanes_end (by omega) placed run
    refine ⟨claimed.nodup_iff.mpr nodup_range, fun i mem => ?_, fun results' done => ?_, error⟩
    · have := claimed.subset (mem_append_right _ mem)
      exact (Nat.lt_min.mp (mem_range.mp this)).2
    · obtain ⟨all, placed'⟩ := ok results' done
      rw [Nat.min_eq_right all] at claimed
      exact ⟨claimed, placed'⟩
  | @resumeFails index results log shared failure parallel more run fails =>
    obtain ⟨claimed, _, _⟩ := lanes_end (by omega) placed run
    refine ⟨claimed.nodup_iff.mpr nodup_range, fun i mem => ?_, nofun, ?_⟩
    · have := claimed.subset (mem_append_right _ mem)
      exact (Nat.lt_min.mp (mem_range.mp this)).2
    · rintro _ ⟨⟩
      exact .inl fails

/-! ## 3. Tasks -/

/-- A task leaves other places alone, and its own result in its place unless a failure is recorded. -/
theorem tasks_spec (tasks : List (Nat × Option F))
    (allowed : ∀ task ∈ tasks, task.1 < len ∧ ∀ failure, task.2 = some failure → failing failure)
    {shared : Shared T F} (before : ∀ entry, shared.error = some entry → Explained len failing evaluate entry.2) :
    ((tasks.foldl (runTask evaluate) shared).error = none →
      shared.error = none ∧ (tasks.filter fun task => task.2.isNone) = tasks ∧
        (∀ i ∈ tasks.map Prod.fst, Placed evaluate (tasks.foldl (runTask evaluate) shared).results i) ∧
        ∀ i, Placed evaluate shared.results i → Placed evaluate (tasks.foldl (runTask evaluate) shared).results i) ∧
      ∀ entry, (tasks.foldl (runTask evaluate) shared).error = some entry →
        Explained len failing evaluate entry.2 := by
  induction tasks generalizing shared with
  | nil => exact ⟨fun quiet => ⟨quiet, rfl, nofun, fun _ placed => placed⟩, before⟩
  | cons task tasks ih =>
    rw [foldl_cons]
    have rest := fun task' mem => allowed task' (mem_cons_of_mem task mem)
    obtain ⟨inside, fails⟩ := allowed task (.head _)
    obtain ⟨index, failed⟩ := task
    cases failed with
    | some failure =>
      have next := @ih rest (runTask evaluate shared (index, some failure))
        (recorded_explained before (.inl (fails failure rfl)))
      exact ⟨fun quiet => absurd (next.1 quiet).1 (recordSchedulerError_ne_none _ _ _), next.2⟩
    | none =>
      cases evaluated : evaluate index with
      | error failure =>
        have step : runTask evaluate shared (index, none) =
          { shared with error := recordSchedulerError shared.error index failure } := by
          simp only [runTask, evaluated]
        have next := @ih rest (runTask evaluate shared (index, none))
          (by rw [step]; exact recorded_explained before (.inr ⟨index, inside, evaluated⟩))
        refine ⟨fun quiet => ?_, next.2⟩
        have := (next.1 quiet).1
        rw [step] at this
        exact absurd this (recordSchedulerError_ne_none _ _ _)
      | ok value =>
        have step : runTask evaluate shared (index, none) =
          { shared with results := Function.update shared.results index (some value) } := by
          simp only [runTask, evaluated]
        have next := @ih rest (runTask evaluate shared (index, none)) (by rw [step]; exact before)
        refine ⟨fun quiet => ?_, next.2⟩
        obtain ⟨was, all, places, keeps⟩ := next.1 quiet
        rw [step] at was keeps
        obtain ⟨here, others⟩ := placed_update shared.results evaluated
        refine ⟨was, ?_, ?_, fun i placed => ?_⟩
        · rw [filter_cons_of_pos rfl, all]
        · rintro i (_ | ⟨_, later⟩)
          · rw [step]
            exact keeps index here
          · exact places i later
        · rw [step]
          exact keeps i (others i placed)

/-- **Tasks**: when no failure is recorded every index was evaluated once, with its result in its place. -/
theorem scoped_spec {outcome : Except F (Nat → Option T)} (run : Scoped len failing evaluate log outcome) :
    (∀ results, outcome = .ok results → log.Perm (List.range len) ∧ ∀ i < len, Placed evaluate results i) ∧
      ∀ failure, outcome = .error failure → Explained len failing evaluate failure := by
  cases run with
  | scope tasks each allowed =>
    have spec := @tasks_spec T F len failing evaluate tasks
      (fun task mem => ⟨mem_range.mp (each.subset (mem_map_of_mem mem)), allowed task mem⟩)
      ⟨0, fun _ => none, none⟩ nofun
    generalize tasks.foldl (runTask evaluate) ⟨0, fun _ => none, none⟩ = shared at spec
    unfold join
    cases error : shared.error with
    | none =>
      obtain ⟨_, all, places, _⟩ := spec.1 error
      refine ⟨?_, nofun⟩
      rintro _ ⟨⟩
      rw [all]
      exact ⟨each, fun i lt => places i (each.symm.subset (mem_range.mpr lt))⟩
    | some entry =>
      refine ⟨nofun, ?_⟩
      rintro _ ⟨⟩
      exact spec.2 entry error

/-! ## 4. Mapping a range -/

variable {operation : Nat → T}

theorem mapM_eq_map {indices : List Nat} (full : ∀ i ∈ indices, results i = some (operation i)) :
    indices.mapM results = some (indices.map operation) := by
  induction indices with
  | nil => rfl
  | cons i indices ih =>
    rw [mapM_cons, full i mem_cons_self, ih fun j mem => full j (mem_cons_of_mem i mem)]
    rfl

theorem collectScheduledResults_eq (full : ∀ i < len, results i = some (operation i)) :
    (collectScheduledResults len results : Except (Stop F) (List T)) = .ok ((List.range len).map operation) := by
  unfold collectScheduledResults
  rw [mapM_eq_map fun i mem => full i (mem_range.mp mem)]

/-- **Mapping a range** ends in a failure of the scheduler, or in the values of the operation in the order of
the indices, each computed once: no result is missing. -/
theorem mapIndexed_eq {outcome : Except (Stop F) (List T)}
    (run : MapIndexed workerCount len failing operation log outcome) :
    (∃ failure, failing failure ∧ outcome = .error (.failed failure)) ∨
      outcome = .ok ((List.range len).map operation) ∧ log.Perm (List.range len) := by
  have ending : ∀ ended : Except F (Nat → Option T), (∀ results, ended = .ok results → log.Perm (List.range len) ∧
      ∀ i < len, Placed (fun index => (.ok (operation index) : Except F T)) results i) →
    (∀ failure, ended = .error failure →
      Explained len failing (fun index => (.ok (operation index) : Except F T)) failure) →
    (∃ failure, failing failure ∧ finish len ended = .error (.failed failure)) ∨
      finish len ended = .ok ((List.range len).map operation) ∧ log.Perm (List.range len) := by
    intro ended done failed
    cases ended with
    | error failure =>
      rcases failed failure rfl with fails | ⟨_, _, ⟨⟩⟩
      exact .inl ⟨failure, fails, rfl⟩
    | ok results =>
      obtain ⟨once, placed⟩ := done results rfl
      refine .inr ⟨collectScheduledResults_eq fun i lt => ?_, once⟩
      obtain ⟨value, ⟨⟩, here⟩ := placed i lt
      exact here
  cases run with
  | active run =>
    obtain ⟨_, _, ok, error⟩ := nested_spec (Nat.zero_le len) nofun run
    exact ending _ ok error
  | inactive run =>
    obtain ⟨ok, error⟩ := scoped_spec run
    exact ending _ ok error

/-! ## 5. The lanes come to an end -/

/-- How far a lane is from its next claim, while indices are left, or from its end. -/
def weight (more : Prop) [Decidable more] : Lane → Nat
  | .starting => 3
  | .looping => 2
  | .acquiring => if more then 1 else 6
  | .claiming => if more then 0 else 1
  | .evaluating _ => 0

theorem weight_congr {p q : Prop} [Decidable p] [Decidable q] (same : p ↔ q) : weight p = weight q := by
  funext lane
  cases lane <;> simp only [weight, same]

/-- The work that is left: the indices that are not yet claimed or evaluated; while indices are left, the
slots that can still be granted; the steps of the lanes up to a claim. -/
def work (len limit : Nat) (state : State T F) : Nat ×ₗ Nat ×ₗ Nat :=
  toLex (2 * (len - state.shared.next) + (inFlight state.lanes).length,
    toLex (if state.shared.next + 1 < len then limit - state.lanes.countP Lane.holdsSlot else 0,
      (state.lanes.map (weight (state.shared.next + 1 < len))).sum))

theorem work_replaced (next : Nat) (results : Nat → Option T) (error : Option (Nat × F))
    (front lanes back : List Lane) : work len limit ⟨⟨next, results, error⟩, front ++ lanes ++ back⟩ =
      toLex (2 * (len - next) + ((inFlight front).length + (inFlight lanes).length + (inFlight back).length),
        toLex (if next + 1 < len then
          limit - (front.countP Lane.holdsSlot + lanes.countP Lane.holdsSlot + back.countP Lane.holdsSlot)
          else 0, (front.map (weight (next + 1 < len))).sum + (lanes.map (weight (next + 1 < len))).sum +
            (back.map (weight (next + 1 < len))).sum)) := by
  unfold work
  rw [inFlight_replaced]
  simp only [length_append, countP_append, map_append, sum_append]

theorem toLex_lt {a a' b b' c c' : Nat} (less : a < a' ∨ a = a' ∧ (b < b' ∨ b = b' ∧ c < c')) :
    toLex (a, toLex (b, c)) < toLex (a', toLex (b', c')) := by
  rw [Prod.Lex.toLex_lt_toLex, Prod.Lex.toLex_lt_toLex]
  exact less

/-- **Every step of lanes whose scheduler does not fail leaves less work.** -/
theorem Step.work_lt (step : Step len limit (fun _ => False) evaluate state log state') :
    work len limit state' < work len limit state := by
  cases step with
  | turn shared front lane back answer allowed =>
    obtain ⟨next, results, error⟩ := shared
    have split : front ++ lane :: back = front ++ [lane] ++ back := by simp
    have busy : (front ++ lane :: back).countP Lane.holdsSlot = front.countP Lane.holdsSlot +
      [lane].countP Lane.holdsSlot + back.countP Lane.holdsSlot := by
      rw [split, countP_append, countP_append]
    rw [busy]
    have here := @work_replaced T F len limit next results error front [lane] back
    rw [← split] at here
    rw [here]
    have calm : ∀ failure, answer ≠ .failed failure := allowed
    cases lane with
    | starting =>
      cases answer with
      | failed failure => exact absurd rfl (calm failure)
      | granted | refused =>
        simp only [Bray.Batch.turn]
        rw [work_replaced]
        exact toLex_lt (by simp [inFlight, evaluates, weight, Lane.holdsSlot])
    | looping =>
      simp only [Bray.Batch.turn]
      rw [work_replaced]
      by_cases more : next + 1 < len
      · exact toLex_lt (by simp [inFlight, evaluates, weight, Lane.holdsSlot, more])
      · exact toLex_lt (by simp [inFlight, evaluates, weight, more])
    | acquiring =>
      cases answer with
      | failed failure => exact absurd rfl (calm failure)
      | refused =>
        simp only [Bray.Batch.turn]
        rw [work_replaced]
        by_cases more : next + 1 < len
        · exact toLex_lt (by simp [inFlight, evaluates, weight, Lane.holdsSlot, more])
        · exact toLex_lt (by simp [inFlight, evaluates, weight, more])
      | granted =>
        simp only [Bray.Batch.turn]
        by_cases free : front.countP Lane.holdsSlot + [Lane.acquiring].countP Lane.holdsSlot +
          back.countP Lane.holdsSlot < limit
        · rw [if_pos free, work_replaced]
          have one : [Lane.acquiring].countP Lane.holdsSlot = 1 := rfl
          have two : [Lane.looping, Lane.starting].countP Lane.holdsSlot = 2 := rfl
          refine toLex_lt (.inr ⟨rfl, ?_⟩)
          by_cases more : next + 1 < len
          · rw [if_pos more, if_pos more]
            exact .inl (by omega)
          · exact .inr (by simp [weight, more])
        · rw [if_neg free, work_replaced]
          by_cases more : next + 1 < len
          · exact toLex_lt (by simp [inFlight, evaluates, weight, Lane.holdsSlot, more])
          · exact toLex_lt (by simp [inFlight, evaluates, weight, more])
    | claiming =>
      simp only [Bray.Batch.turn]
      refine toLex_lt ?_
      by_cases inside : next < len
      · simp [inFlight, evaluates, inside]
        omega
      · have last : ¬ next + 1 < len := by omega
        have last' : ¬ next + 1 + 1 < len := by omega
        rw [weight_congr (iff_of_false last' last)]
        simp [inFlight, evaluates, weight, inside, last, last']
        omega
    | evaluating index =>
      simp only [Bray.Batch.turn]
      cases evaluate index with
      | ok value | error failure =>
        exact toLex_lt (.inl (by simp [inFlight, evaluates]))

/-- **No run goes on for ever** when the scheduler does not fail. -/
theorem calm_wellFounded (len limit : Nat) (evaluate : Nat → Except F T) :
    WellFounded fun later earlier : State T F =>
      ∃ log, Step len limit (fun _ => False) evaluate earlier log later :=
  Subrelation.wf (fun ⟨_, step⟩ => step.work_lt) (InvImage.wf (work len limit) wellFounded_lt)

/-! ## 6. A range can be mapped -/

/-- When no slot is free, the indices are evaluated one by one. -/
theorem nested_exists (operation : Nat → T) {index : Nat} (results : Nat → Option T) (start : index ≤ len) :
    ∃ log outcome, Nested len workerCount failing (fun index => .ok (operation index)) index results log
      (.ok outcome) := by
  obtain ⟨left, rfl⟩ := Nat.exists_eq_add_of_le start
  induction left generalizing index results with
  | zero => exact ⟨[], results, .done (Nat.le_refl _)⟩
  | succ left ih =>
    obtain ⟨log, outcome, rest⟩ :=
      @ih (index + 1) (Function.update results index (some (operation index))) (by omega)
    refine ⟨index :: log, outcome, .alone (by omega) rfl ?_⟩
    have same : index + 1 + left = index + (left + 1) := by omega
    rwa [same] at rest

theorem mapIndexed_exists (operation : Nat → T) :
    ∃ log, MapIndexed workerCount len failing operation log (.ok ((List.range len).map operation)) := by
  obtain ⟨log, results, run⟩ := @nested_exists T F len workerCount failing operation 0 (fun _ => none) (Nat.zero_le _)
  refine ⟨log, ?_⟩
  have full : ∀ i < len, results i = some (operation i) := by
    intro i lt
    obtain ⟨_, _, ok, _⟩ := nested_spec (Nat.zero_le len) nofun run
    obtain ⟨value, ⟨⟩, here⟩ := (ok results rfl).2 i lt
    exact here
  have ended := MapIndexed.active run
  rwa [show finish len (.ok results : Except F (Nat → Option T)) = .ok ((List.range len).map operation) from
    collectScheduledResults_eq full] at ended

end Bray.Batch
