/-
  File:      Bray/Lib/Loop.lean
  Subject:   RUNS AND COUNTING LOOPS: a run that may stop is an `Option`, and a loop over a counter keeps an
  invariant.

  `none` is a run that stopped on a check it did not pass. `Yields run post` says that the run does not
  stop and that its result satisfies `post`: the triple of total correctness, of which sequencing and the
  two counting loops are the rules (`Yields.bind`, `countUp_yields`, `countDown_yields`).
-/
import Bray.Lib.Check

namespace Bray.Lib

variable {α β σ : Type}

/-! ## 1. Runs -/

/-- **A run ends**, and its result is as `post` says. -/
def Yields (run : Option α) (post : α → Prop) : Prop := ∃ a, run = some a ∧ post a

@[simp] theorem yields_some {a : α} {post : α → Prop} : Yields (some a) post ↔ post a := by
  simp [Yields]

/-- A run followed by another one. -/
theorem Yields.bind {run : Option α} {next : α → Option β} {mid : α → Prop} {post : β → Prop}
    (first : Yields run mid) (second : ∀ a, mid a → Yields (next a) post) : Yields (run >>= next) post := by
  obtain ⟨a, rfl, holds⟩ := first
  exact second a holds

/-- What a run yields may be said more weakly. -/
theorem Yields.mono {run : Option α} {post post' : α → Prop} (h : Yields run post)
    (weaker : ∀ a, post a → post' a) : Yields run post' := by
  obtain ⟨a, ends, holds⟩ := h
  exact ⟨a, ends, weaker a holds⟩

/-! ## 2. Counting loops -/

/-- Runs the body for `start`, `start + 1`, … , `count` times. -/
def countUp (body : Nat → σ → Option σ) : Nat → Nat → σ → Option σ
  | _, 0, s => some s
  | start, count + 1, s => body start s >>= countUp body (start + 1) count

/-- Runs the body for `count - 1`, … , `1`, `0`. -/
def countDown (body : Nat → σ → Option σ) : Nat → σ → Option σ
  | 0, s => some s
  | count + 1, s => body count s >>= countDown body count

/-- **The rule of the upward loop**: what one round carries from an index to the next holds behind the last
index. -/
theorem countUp_yields {body : Nat → σ → Option σ} (inv : Nat → σ → Prop) {start count : Nat} {s : σ}
    (init : inv start s)
    (round : ∀ i s, start ≤ i → i < start + count → inv i s → Yields (body i s) (inv (i + 1))) :
    Yields (countUp body start count s) (inv (start + count)) := by
  induction count generalizing start s with
  | zero => exact yields_some.mpr init
  | succ count ih =>
    refine (round start s (Nat.le_refl _) (by omega) init).bind fun s' next => ?_
    have rest := ih next fun i s from_ below => round i s (by omega) (by omega)
    rwa [Nat.add_right_comm] at rest

/-- **The rule of the downward loop**: what one round carries from an index to the one below holds at
zero. -/
theorem countDown_yields {body : Nat → σ → Option σ} (inv : Nat → σ → Prop) {count : Nat} {s : σ}
    (init : inv count s) (round : ∀ i s, i < count → inv (i + 1) s → Yields (body i s) (inv i)) :
    Yields (countDown body count s) (inv 0) := by
  induction count generalizing s with
  | zero => exact yields_some.mpr init
  | succ count ih =>
    refine (round count s (by omega) init).bind fun s' next => ?_
    exact ih next fun i s below => round i s (by omega)

end Bray.Lib
