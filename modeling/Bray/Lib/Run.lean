/-
  File:      Bray/Lib/Run.lean
  Subject:   RUNS OF A LABELLED MACHINE. Nothing of this repository is named here.

  A machine is a step function `step : σ → ι → Except ε (σ × ο)`: in state `s` the input `i`
  either faults or leads to one next state and one output. A run is a finite sequence of steps
  that do not fault; its trace lists every input with its output, first step first.

  * `Run step s tr s'` -- the run from `s` to `s'` with trace `tr`;
  * `Run.invariant` -- what one step preserves, every run preserves; `Run.invariant_trace` -- the
    same of the state and the trace so far;
  * `Run.append`, `Run.split`, `Run.snoc` -- runs compose and fall apart at any point of the trace;
  * `RunWhere ok step s tr s'` -- a run whose steps are all taken where `ok` allows them;
  * `execute` -- the run of a given list of inputs, computed; `execute_invariant` -- it does not fault
    where no step from an invariant state does; `execute_simulates` -- it answers as a machine that
    never faults, where every step does; `execute_allows` -- the same of a relation.
-/
import Mathlib.Data.List.Basic

namespace Bray.Lib

variable {σ ι ε ο : Type}

/-- A finite run of the machine `step`, with the inputs and outputs of its steps in order. -/
inductive Run (step : σ → ι → Except ε (σ × ο)) : σ → List (ι × ο) → σ → Prop where
  | nil (s : σ) : Run step s [] s
  | cons {s s' s'' : σ} {i : ι} {o : ο} {tr : List (ι × ο)}
    (hs : step s i = .ok (s', o)) (hr : Run step s' tr s'') : Run step s ((i, o) :: tr) s''

/-- A state some run from `s₀` ends in. -/
def Reachable (step : σ → ι → Except ε (σ × ο)) (s₀ s : σ) : Prop := ∃ tr, Run step s₀ tr s

namespace Run

variable {step : σ → ι → Except ε (σ × ο)}

theorem append {s s' s'' : σ} {tr tr' : List (ι × ο)} (h : Run step s tr s')
    (h' : Run step s' tr' s'') : Run step s (tr ++ tr') s'' := by
  induction h with
  | nil s => exact h'
  | cons hs _ ih => exact .cons hs (ih h')

/-- **A run falls apart at every point of its trace.** -/
theorem split {s s'' : σ} {tr tr' : List (ι × ο)} (h : Run step s (tr ++ tr') s'') :
    ∃ s', Run step s tr s' ∧ Run step s' tr' s'' := by
  induction tr generalizing s with
  | nil => exact ⟨s, .nil s, h⟩
  | cons a tr ih =>
    cases h with
    | cons hs hr =>
      obtain ⟨s', h1, h2⟩ := ih hr
      exact ⟨s', .cons hs h1, h2⟩

theorem single {s s' : σ} {i : ι} {o : ο} (hs : step s i = .ok (s', o)) : Run step s [(i, o)] s' :=
  .cons hs (.nil s')

/-- **What one step preserves, every run preserves.** -/
theorem invariant {P : σ → Prop}
    (hP : ∀ s i s' o, P s → step s i = .ok (s', o) → P s') {s s' : σ} {tr : List (ι × ο)}
    (h : Run step s tr s') (hs : P s) : P s' := by
  induction h with
  | nil s => exact hs
  | cons hst _ ih => exact ih (hP _ _ _ _ hs hst)

/-- **What one step preserves of a state and of the trace that led to it**, every run does. -/
theorem invariant_trace {P : List (ι × ο) → σ → Prop}
    (hP : ∀ tr s i s' o, P tr s → step s i = .ok (s', o) → P (tr ++ [(i, o)]) s') {s s' : σ}
    {tr : List (ι × ο)} (h : Run step s tr s') (hs : P [] s) : P tr s' := by
  -- the trace of the steps already taken grows at its end
  suffices key : ∀ {s s' : σ} {tr : List (ι × ο)}, Run step s tr s' → ∀ done, P done s →
    P (done ++ tr) s' from key h [] hs
  intro s s' tr h
  induction h with
  | nil s => intro done hd; simpa using hd
  | cons hst _ ih =>
    intro done hd
    have := ih _ (hP done _ _ _ _ hd hst)
    simpa using this

end Run

/-- A run whose steps are all taken where `ok` allows them. -/
inductive RunWhere (ok : σ → ι → Prop) (step : σ → ι → Except ε (σ × ο)) :
  σ → List (ι × ο) → σ → Prop where
  | nil (s : σ) : RunWhere ok step s [] s
  | cons {s s' s'' : σ} {i : ι} {o : ο} {tr : List (ι × ο)} (hok : ok s i)
    (hs : step s i = .ok (s', o)) (hr : RunWhere ok step s' tr s'') :
    RunWhere ok step s ((i, o) :: tr) s''

namespace RunWhere

variable {ok : σ → ι → Prop} {step : σ → ι → Except ε (σ × ο)}

theorem run {s s' : σ} {tr : List (ι × ο)} (h : RunWhere ok step s tr s') : Run step s tr s' := by
  induction h with
  | nil s => exact .nil s
  | cons _ hs _ ih => exact .cons hs ih

theorem split {s s'' : σ} {tr tr' : List (ι × ο)} (h : RunWhere ok step s (tr ++ tr') s'') :
    ∃ s', RunWhere ok step s tr s' ∧ RunWhere ok step s' tr' s'' := by
  induction tr generalizing s with
  | nil => exact ⟨s, .nil s, h⟩
  | cons a tr ih =>
    cases h with
    | cons hok hs hr =>
      obtain ⟨s', h1, h2⟩ := ih hr
      exact ⟨s', .cons hok hs h1, h2⟩

/-- **What one allowed step preserves of a state and of the trace that led to it**, every such run does. -/
theorem invariant_trace {P : List (ι × ο) → σ → Prop}
    (hP : ∀ tr s i s' o, P tr s → ok s i → step s i = .ok (s', o) → P (tr ++ [(i, o)]) s') {s s' : σ}
    {tr : List (ι × ο)} (h : RunWhere ok step s tr s') (hs : P [] s) : P tr s' := by
  suffices key : ∀ {s s' : σ} {tr : List (ι × ο)}, RunWhere ok step s tr s' → ∀ done, P done s →
    P (done ++ tr) s' from key h [] hs
  intro s s' tr h
  induction h with
  | nil s => intro done hd; simpa using hd
  | cons hok hst _ ih =>
    intro done hd
    have := ih _ (hP done _ _ _ _ hd hok hst)
    simpa using this

end RunWhere

/-- Running a list of inputs, as long as no step faults. -/
def execute (step : σ → ι → Except ε (σ × ο)) : σ → List ι → Except ε (σ × List (ι × ο))
  | s, [] => .ok (s, [])
  | s, i :: is => do
    let (s', o) ← step s i
    let (s'', tr) ← execute step s' is
    pure (s'', (i, o) :: tr)

variable {step : σ → ι → Except ε (σ × ο)}

theorem Run.of_execute {s s' : σ} (is : List ι)
    {tr : List (ι × ο)} (h : execute step s is = .ok (s', tr)) : Run step s tr s' := by
  induction is generalizing s tr with
  | nil =>
    cases h
    exact .nil _
  | cons i is ih =>
    simp only [execute] at h
    cases h₁ : step s i with
    | error f => rw [h₁] at h; cases h
    | ok x =>
      rw [h₁] at h
      cases h₂ : execute step x.1 is with
      | error f => simp only [bind, Except.bind, h₂] at h; cases h
      | ok y =>
        simp only [bind, Except.bind, h₂] at h
        cases h
        exact .cons h₁ (ih h₂)

/-- A list of inputs that are allowed everywhere runs where they are allowed. -/
theorem RunWhere.of_execute {ok : σ → ι → Prop} {s s' : σ} (is : List ι)
    (hok : ∀ i ∈ is, ∀ s, ok s i) {tr : List (ι × ο)} (h : execute step s is = .ok (s', tr)) :
    RunWhere ok step s tr s' := by
  induction is generalizing s tr with
  | nil =>
    cases h
    exact .nil _
  | cons i is ih =>
    simp only [execute] at h
    cases h₁ : step s i with
    | error f => rw [h₁] at h; cases h
    | ok x =>
      rw [h₁] at h
      cases h₂ : execute step x.1 is with
      | error f => simp only [bind, Except.bind, h₂] at h; cases h
      | ok y =>
        simp only [bind, Except.bind, h₂] at h
        cases h
        exact .cons (hok i List.mem_cons_self s) h₁ (ih (fun j hj => hok j (List.mem_cons_of_mem _ hj)) h₂)

/-- **Where every step from an invariant state succeeds and keeps the invariant**, every list of inputs
  does. -/
theorem execute_invariant {P : σ → Prop}
    (hP : ∀ s i, P s → ∃ s' o, step s i = .ok (s', o) ∧ P s') {s : σ} (hs : P s) (is : List ι) :
    ∃ s' tr, execute step s is = .ok (s', tr) ∧ P s' := by
  induction is generalizing s with
  | nil => exact ⟨s, [], rfl, hs⟩
  | cons i is ih =>
    obtain ⟨s₁, o, h₁, hP₁⟩ := hP s i hs
    obtain ⟨s₂, tr, h₂, hP₂⟩ := ih hP₁
    refine ⟨s₂, (i, o) :: tr, ?_, hP₂⟩
    simp only [execute, h₁, bind, Except.bind, h₂]
    rfl

/-- Running a machine that never faults. -/
def perform {τ : Type} (step : τ → ι → τ × ο) : τ → List ι → τ × List (ι × ο)
  | a, [] => (a, [])
  | a, i :: is => ((perform step (step a i).1 is).1, (i, (step a i).2) :: (perform step (step a i).1 is).2)

/-- **Where every step answers as the other machine's does**, every list of inputs is answered so. -/
theorem execute_simulates {τ : Type} {astep : τ → ι → τ × ο} {R : σ → τ → Prop}
    (hR : ∀ s a i, R s a → ∃ s', step s i = .ok (s', (astep a i).2) ∧ R s' (astep a i).1) {s : σ}
    {a : τ} (h : R s a) (is : List ι) :
    ∃ s', execute step s is = .ok (s', (perform astep a is).2) ∧ R s' (perform astep a is).1 := by
  induction is generalizing s a with
  | nil => exact ⟨s, rfl, h⟩
  | cons i is ih =>
    obtain ⟨s₁, h₁, hR₁⟩ := hR s a i h
    obtain ⟨s₂, h₂, hR₂⟩ := ih hR₁
    refine ⟨s₂, ?_, hR₂⟩
    simp only [execute, h₁, bind, Except.bind, h₂]
    rfl

/-- A trace that a relation between states, inputs, outputs and next states allows. -/
inductive Allows {τ : Type} (rel : τ → ι → ο → τ → Prop) : τ → List (ι × ο) → τ → Prop where
  | nil (a : τ) : Allows rel a [] a
  | cons {a a' a'' : τ} {i : ι} {o : ο} {tr : List (ι × ο)} (hs : rel a i o a')
    (hr : Allows rel a' tr a'') : Allows rel a ((i, o) :: tr) a''

/-- **Where every step answers as the relation allows**, every list of inputs is answered so. -/
theorem execute_allows {τ : Type} {rel : τ → ι → ο → τ → Prop} {R : σ → τ → Prop}
    (hR : ∀ s a i, R s a → ∃ s' o a', step s i = .ok (s', o) ∧ rel a i o a' ∧ R s' a') {s : σ}
    {a : τ} (h : R s a) (is : List ι) :
    ∃ s' tr a', execute step s is = .ok (s', tr) ∧ Allows rel a tr a' ∧ R s' a' := by
  induction is generalizing s a with
  | nil => exact ⟨s, [], a, rfl, .nil a, h⟩
  | cons i is ih =>
    obtain ⟨s₁, o, a₁, h₁, hrel, hR₁⟩ := hR s a i h
    obtain ⟨s₂, tr, a₂, h₂, hallows, hR₂⟩ := ih hR₁
    refine ⟨s₂, (i, o) :: tr, a₂, ?_, .cons hrel hallows, hR₂⟩
    simp only [execute, h₁, bind, Except.bind, h₂]
    rfl

namespace Reachable

variable {step : σ → ι → Except ε (σ × ο)}

theorem refl (s : σ) : Reachable step s s := ⟨[], .nil s⟩

theorem run {s₀ s s' : σ} {tr : List (ι × ο)} (h : Reachable step s₀ s) (hr : Run step s tr s') :
    Reachable step s₀ s' := by
  obtain ⟨tr₀, h₀⟩ := h
  exact ⟨tr₀ ++ tr, h₀.append hr⟩

theorem next {s₀ s s' : σ} {i : ι} {o : ο} (h : Reachable step s₀ s)
    (hs : step s i = .ok (s', o)) : Reachable step s₀ s' :=
  h.run (.single hs)

end Reachable

end Bray.Lib
