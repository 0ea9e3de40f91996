/-
  File:      Bray/Lib/Crash.lean
  Subject:   PROGRAMS OVER A DURABLE STATE WHOSE STEPS MAY FAIL OR BE THE LAST. Nothing of this
    repository is named here.

  A program is a sequence of named steps. Each step is atomic: its fate lets it proceed, makes it
  fail without any effect, or stops the whole program just before it. A failure can be caught and
  undone; a stop cannot. The fates of all steps are one function, so a statement for every such
  function speaks of every way the program can go.

  * `Program`, `act`, `write`, `check`, `poll`, `read`, `refuse` -- programs and their atomic steps;
  * `undoing`, `tolerate`, `mapError` -- the ways a failure is handled;
  * `eachFrom`, `collectFrom` -- loops over a list, which number their rounds;
  * `Meets` -- a program from states in `P` ends as `Ends` says, in each of the three ways it can;
    `meets_bind`, `meets_act`, `meets_undoing`, `meets_eachFrom`, ... are its rules;
  * `Keeps` -- an invariant of every end, the stopped one included;
  * `Attempts`, `Attempts.invariant` -- a program run again and again until one run completes.
-/
import Mathlib.Data.List.Basic

namespace Bray.Lib

/-! ## 1. Programs -/

/-- What becomes of one step. -/
inductive Fate (Cause : Type) where
  | proceeds
  | fails (cause : Cause)
  | stops

/-- How a program ends. A failure names the step that failed. -/
inductive Outcome (Step Error α : Type) where
  | done (value : α)
  | failed (step : Step) (error : Error)
  | stopped
deriving DecidableEq

/-- Whether the end is a completed one. -/
def Outcome.isDone {Step Error α : Type} : Outcome Step Error α → Bool
  | .done _ => true
  | _ => false

/-- A program: from the fates of its steps and the durable state, how it ends and what it leaves. -/
structure Program (State Step Cause Error α : Type) where
  run : (Step → Fate Cause) → State → Outcome Step Error α × State

namespace Program

variable {State Step Cause Error Error' α β ι : Type}

instance : Monad (Program State Step Cause Error) where
  pure a := ⟨fun _ s => (.done a, s)⟩
  bind m f := ⟨fun fate s =>
    match m.run fate s with
    | (.done a, s') => (f a).run fate s'
    | (.failed step error, s') => (.failed step error, s')
    | (.stopped, s') => (.stopped, s')⟩

/-- A run that completes has an answer. -/
theorem exists_done {m : Program State Step Cause Error α} {fate : Step → Fate Cause} {s : State}
    (h : (m.run fate s).1.isDone = true) : ∃ a s', m.run fate s = (.done a, s') := by
  match hrun : m.run fate s with
  | (.done a, s') => exact ⟨a, s', rfl⟩
  | (.failed _ _, _) => simp [hrun, Outcome.isDone] at h
  | (.stopped, _) => simp [hrun, Outcome.isDone] at h

/-- One atomic step, which the state itself may refuse. -/
def act (step : Step) (onFailure : Cause → Error) (effect : State → Except Error (α × State)) :
  Program State Step Cause Error α :=
  ⟨fun fate s =>
    match fate step with
    | .stops => (.stopped, s)
    | .fails cause => (.failed step (onFailure cause), s)
    | .proceeds =>
      match effect s with
      | .ok (a, s') => (.done a, s')
      | .error error => (.failed step error, s)⟩

/-- One atomic step that changes the state. -/
def write (step : Step) (onFailure : Cause → Error) (effect : State → State) :
  Program State Step Cause Error Unit :=
  act step onFailure fun s => .ok ((), effect s)

/-- One step that leaves the state alone. -/
def check (step : Step) (onFailure : Cause → Error) : Program State Step Cause Error Unit :=
  write step onFailure id

/-- A question to the surroundings, answered with yes where the step's fate is to fail. -/
def poll (step : Step) : Program State Step Cause Error Bool :=
  ⟨fun fate s =>
    match fate step with
    | .stops => (.stopped, s)
    | .fails _ => (.done true, s)
    | .proceeds => (.done false, s)⟩

/-- What the state says, without a step. -/
def read (view : State → α) : Program State Step Cause Error α := ⟨fun _ s => (.done (view s), s)⟩

/-- A failure of the program's own. -/
def refuse (step : Step) (error : Error) : Program State Step Cause Error α :=
  ⟨fun _ s => (.failed step error, s)⟩

/-- `m`, and where it fails `undo` before the failure is passed on. A failure of `undo` wins. -/
def undoing (m : Program State Step Cause Error α) (undo : Program State Step Cause Error Unit) :
  Program State Step Cause Error α :=
  ⟨fun fate s =>
    match m.run fate s with
    | (.failed step error, s') => (do undo; refuse step error : Program _ _ _ _ α).run fate s'
    | other => other⟩

/-- `m`, a failure of which is an answer. -/
def tolerate (m : Program State Step Cause Error Unit) :
  Program State Step Cause Error' (Option Error) :=
  ⟨fun fate s =>
    match m.run fate s with
    | (.done (), s') => (.done none, s')
    | (.failed _ error, s') => (.done (some error), s')
    | (.stopped, s') => (.stopped, s')⟩

def mapError (f : Error → Error') (m : Program State Step Cause Error α) :
  Program State Step Cause Error' α :=
  ⟨fun fate s =>
    match m.run fate s with
    | (.done a, s') => (.done a, s')
    | (.failed step error, s') => (.failed step (f error), s')
    | (.stopped, s') => (.stopped, s')⟩

/-- One round for each element, the first of them round `i`. -/
def eachFrom (body : Nat → ι → Program State Step Cause Error Unit) :
  Nat → List ι → Program State Step Cause Error Unit
  | _, [] => pure ()
  | i, x :: xs => do
    body i x
    eachFrom body (i + 1) xs

/-- The answers of one round for each element, the first of them round `i`. -/
def collectFrom (body : Nat → ι → Program State Step Cause Error β) :
  Nat → List ι → Program State Step Cause Error (List β)
  | _, [] => pure []
  | i, x :: xs => do
    let b ← body i x
    let rest ← collectFrom body (i + 1) xs
    pure (b :: rest)

end Program

/-! ## 2. What a program meets -/

/-- What is to hold at each of the three ends of a program. -/
structure Ends (State Step Error α : Type) where
  done : α → State → Prop
  failed : Step → Error → State → Prop
  stopped : State → Prop

section Meets

open Program

variable {State Step Cause Error Error' α β ι : Type} {fate : Step → Fate Cause}
  {P P' : State → Prop} {R : α → State → Prop} {Q : β → State → Prop}
  {F F' : Step → Error → State → Prop} {C C' : State → Prop}

/-- The end of one run. -/
def Ends.Hold (ends : Ends State Step Error α) : Outcome Step Error α × State → Prop
  | (.done a, s) => ends.done a s
  | (.failed step error, s) => ends.failed step error s
  | (.stopped, s) => ends.stopped s

/-- **From every state in `P`, the program ends as `ends` says**, under the given fates. -/
def Meets (fate : Step → Fate Cause) (P : State → Prop) (m : Program State Step Cause Error α)
  (ends : Ends State Step Error α) : Prop :=
  ∀ s, P s → ends.Hold (m.run fate s)

/-- **The program keeps `P` however it ends.** -/
def Keeps (fate : Step → Fate Cause) (P : State → Prop) (m : Program State Step Cause Error α) :
  Prop :=
  Meets fate P m ⟨fun _ => P, fun _ _ => P, P⟩

variable {m : Program State Step Cause Error α}

theorem Meets.hold {ends : Ends State Step Error α}
    (h : Meets fate P m ends) {s : State} (hs : P s) {r : Outcome Step Error α × State}
    (hrun : m.run fate s = r) : ends.Hold r :=
  hrun ▸ h s hs

/-- What a program keeps holds where a run ends. -/
theorem Keeps.hold (h : Keeps fate P m) {s s' : State} {o : Outcome Step Error α} (hs : P s)
    (hrun : m.run fate s = (o, s')) : P s' := by
  have hk := h s hs
  rw [hrun] at hk
  cases o <;> exact hk

theorem Meets.weaken {ends ends' : Ends State Step Error α} (h : Meets fate P m ends) (hP : ∀ s, P' s → P s)
    (hdone : ∀ a s, ends.done a s → ends'.done a s)
    (hfailed : ∀ step e s, ends.failed step e s → ends'.failed step e s)
    (hstopped : ∀ s, ends.stopped s → ends'.stopped s) : Meets fate P' m ends' := by
  intro s hs
  have hm := h s (hP s hs)
  match hrun : m.run fate s with
  | (.done a, s') => rw [hrun] at hm; exact hdone a s' hm
  | (.failed step e, s') => rw [hrun] at hm; exact hfailed step e s' hm
  | (.stopped, s') => rw [hrun] at hm; exact hstopped s' hm

/-- What holds at the start of every run can be used in its proof. -/
theorem meets_of_start {ends : Ends State Step Error α}
    (h : ∀ s, P s → Meets fate (fun s' => s' = s) m ends) : Meets fate P m ends :=
  fun s hs => h s hs s rfl

theorem meets_read {view : State → α} (h : ∀ s, P s → R (view s) s) :
    Meets fate P (Program.read view : Program State Step Cause Error α) ⟨R, F, C⟩ :=
  fun s hs => h s hs

variable {step : Step}

theorem meets_refuse {error : Error} :
    Meets fate (F step error) (refuse step error : Program State Step Cause Error α) ⟨R, F, C⟩ :=
  fun _ hs => hs

/-- **The rule of sequence**: what fails or stops in either part fails or stops in the whole. -/
theorem meets_bind {f : α → Program State Step Cause Error β} (hm : Meets fate P m ⟨R, F, C⟩)
    (hf : ∀ a, Meets fate (R a) (f a) ⟨Q, F, C⟩) : Meets fate P (m >>= f) ⟨Q, F, C⟩ := by
  intro s hs
  have h := hm s hs
  simp only [bind]
  match hrun : m.run fate s with
  | (.done a, s') => rw [hrun] at h; exact hf a s' h
  | (.failed step e, s') => rw [hrun] at h; exact h
  | (.stopped, s') => rw [hrun] at h; exact h

variable {onFailure : Cause → Error}

/-- **The rule of an atomic step**: a failure and a stop find the state as it was. -/
theorem meets_act {effect : State → Except Error (α × State)}
    (hok : ∀ s a s', P s → effect s = .ok (a, s') → R a s')
    (hrefused : ∀ s e, P s → effect s = .error e → F step e s)
    (hfails : ∀ s cause, P s → fate step = .fails cause → F step (onFailure cause) s)
    (hstops : ∀ s, P s → fate step = .stops → C s) : Meets fate P (act step onFailure effect) ⟨R, F, C⟩ := by
  intro s hs
  simp only [act]
  match hfate : fate step with
  | .stops => exact hstops s hs hfate
  | .fails cause => exact hfails s cause hs hfate
  | .proceeds =>
    match heffect : effect s with
    | .ok (a, s') => exact hok s a s' hs heffect
    | .error e => exact hrefused s e hs heffect

theorem meets_write {effect : State → State} {R : Unit → State → Prop} (hok : ∀ s, P s → R () (effect s))
    (hfails : ∀ s cause, P s → fate step = .fails cause → F step (onFailure cause) s)
    (hstops : ∀ s, P s → fate step = .stops → C s) : Meets fate P (write step onFailure effect) ⟨R, F, C⟩ := by
  refine meets_act (fun s a s' hs he => ?_) (fun s e hs he => ?_) hfails hstops
  · cases he
    exact hok s hs
  · cases he

theorem meets_check (hfails : ∀ s cause, P s → fate step = .fails cause → F step (onFailure cause) s)
    (hstops : ∀ s, P s → fate step = .stops → C s) : Meets fate P (check step onFailure) ⟨fun _ => P, F, C⟩ :=
  meets_write (fun _ hs => hs) hfails hstops

theorem meets_poll {R : Bool → State → Prop} (hno : ∀ s, P s → R false s)
    (hyes : ∀ s, P s → fate step ≠ .proceeds → R true s) (hstops : ∀ s, P s → fate step = .stops → C s) :
    Meets fate P (poll step : Program State Step Cause Error Bool) ⟨R, F, C⟩ := by
  intro s hs
  simp only [poll]
  match hfate : fate step with
  | .stops => exact hstops s hs hfate
  | .fails cause => exact hyes s hs (by simp [hfate])
  | .proceeds => exact hno s hs

/-- **The rule of undoing**: `undo` starts where `m` failed, and what it reaches is the failure's
  end. -/
theorem meets_undoing {undo : Program State Step Cause Error Unit} (hm : Meets fate P m ⟨R, F', C⟩)
    (hundo : ∀ step e, Meets fate (F' step e) undo ⟨fun _ => F step e, F, C⟩) :
    Meets fate P (undoing m undo) ⟨R, F, C⟩ := by
  intro s hs
  have h := hm s hs
  simp only [undoing]
  match hrun : m.run fate s with
  | (.done a, s') => rw [hrun] at h; exact h
  | (.stopped, s') => rw [hrun] at h; exact h
  | (.failed step e, s') =>
    rw [hrun] at h
    exact meets_bind (hundo step e) (fun _ => meets_refuse) s' h

theorem meets_tolerate {m : Program State Step Cause Error Unit} {R : Unit → State → Prop}
    {Q : Option Error → State → Prop} {G : Step → Error' → State → Prop}
    (hm : Meets fate P m ⟨R, F, C⟩) (hdone : ∀ s, R () s → Q none s)
    (hfailed : ∀ step e s, F step e s → Q (some e) s) :
    Meets fate P (tolerate m : Program State Step Cause Error' (Option Error)) ⟨Q, G, C⟩ := by
  intro s hs
  have h := hm s hs
  simp only [tolerate]
  match hrun : m.run fate s with
  | (.done (), s') => rw [hrun] at h; exact hdone s' h
  | (.failed step e, s') => rw [hrun] at h; exact hfailed step e s' h
  | (.stopped, s') => rw [hrun] at h; exact h

theorem meets_mapError {f : Error → Error'} {G : Step → Error' → State → Prop} (hm : Meets fate P m ⟨R, F, C⟩)
    (hF : ∀ step e s, F step e s → G step (f e) s) : Meets fate P (mapError f m) ⟨R, G, C⟩ := by
  intro s hs
  have h := hm s hs
  simp only [mapError]
  match hrun : m.run fate s with
  | (.done a, s') => rw [hrun] at h; exact h
  | (.failed step e, s') => rw [hrun] at h; exact hF step e s' h
  | (.stopped, s') => rw [hrun] at h; exact h

/-- **The rule of a loop**: the invariant names the rounds that are still to come. -/
theorem meets_eachFrom {body : Nat → ι → Program State Step Cause Error Unit}
    {I : List ι → State → Prop} (h : ∀ i x xs, Meets fate (I (x :: xs)) (body i x) ⟨fun _ => I xs, F, C⟩)
    (i : Nat) (xs : List ι) : Meets fate (I xs) (eachFrom body i xs) ⟨fun _ => I [], F, C⟩ := by
  induction xs generalizing i with
  | nil => exact fun _ hs => hs
  | cons x xs ih => exact meets_bind (h i x xs) (fun _ => ih (i + 1))

/-- The rule of a loop that collects: each answer is related to its element. -/
theorem meets_collectFrom {body : Nat → ι → Program State Step Cause Error β} {r : ι → β → Prop}
    (h : ∀ i x, Meets fate P (body i x) ⟨fun b s => r x b ∧ P s, F, C⟩) (i : Nat) (xs : List ι) :
    Meets fate P (collectFrom body i xs) ⟨fun bs s => List.Forall₂ r xs bs ∧ P s, F, C⟩ := by
  induction xs generalizing i with
  | nil => exact fun s hs => ⟨.nil, hs⟩
  | cons x xs ih =>
    refine meets_bind (h i x) fun b => ?_
    refine meets_of_start fun s hs => ?_
    refine meets_bind (R := fun bs s' => List.Forall₂ r xs bs ∧ P s') ?_ fun bs => ?_
    · exact (ih (i + 1)).weaken (fun s' he => he ▸ hs.2) (fun _ _ hd => hd) (fun _ _ _ hd => hd)
        (fun _ hd => hd)
    · exact fun s' hs' => ⟨.cons hs.1 hs'.1, hs'.2⟩

end Meets

/-! ## 3. Programs that are run again -/

section Attempts

variable {State Step Cause Error : Type} {m : Program State Step Cause Error Unit}

/-- **Runs of one program until one completes**, each from what the one before left; the runs
  before the last failed or were stopped, at any step. -/
inductive Attempts (m : Program State Step Cause Error Unit) : State → State → Prop where
  | completes {s s' : State} (fate : Step → Fate Cause) (h : m.run fate s = (.done (), s')) :
    Attempts m s s'
  | again {s s' s'' : State} {o : Outcome Step Error Unit} (fate : Step → Fate Cause)
    (h : m.run fate s = (o, s')) (rest : Attempts m s' s'') : Attempts m s s''

/-- **What every end of a run keeps holds where the last run starts.** -/
theorem Attempts.invariant {I : State → Prop} (hI : ∀ fate, Keeps fate I m) {s s' : State}
    (h : Attempts m s s') (hs : I s) : ∃ s₁, I s₁ ∧ ∃ fate, m.run fate s₁ = (.done (), s') := by
  induction h with
  | completes fate hrun => exact ⟨_, hs, fate, hrun⟩
  | @again s s₁ s' o fate hrun _ ih =>
    refine ih ?_
    have hk := hI fate s hs
    rw [hrun] at hk
    cases o <;> exact hk

end Attempts

end Bray.Lib
