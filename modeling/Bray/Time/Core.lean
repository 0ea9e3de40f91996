/-
  File:      Bray/Time/Core.lean
  Subject:   DURATIONS AND TIMESTAMPS (std/time/core.bray): seconds and nanoseconds, added and subtracted with a
  carry or a borrow between the two.

  `total` reads a value as a number of nanoseconds. An operation that succeeds is exact (`add_eq_ok`,
  `subtract_eq_ok`). The converse has one gap: the carry is added after the sum of the seconds was checked, so a
  sum one below the range is refused even where the carry brings it back (`LostCarry`, `LostBorrow`).
-/
import Mathlib.Tactic.Linarith

namespace Bray.Time

/-! ## 1. Seconds -/

def nanosecondsPerSecond : Nat := 1000000000

def i64Min : Int := -9223372036854775808

def i64Max : Int := 9223372036854775807

/-- A value of `i64`. -/
abbrev I64 : Type := {n : Int // i64Min ≤ n ∧ n ≤ i64Max}

def I64.of (n : Int) : Option I64 := if h : i64Min ≤ n ∧ n ≤ i64Max then some ⟨n, h⟩ else none

/-- A carry or a borrow of one second. -/
def I64.bit (b : Bool) : I64 := ⟨if b then 1 else 0, by cases b <;> decide⟩

theorem I64.of_eq_some {n : Int} {c : I64} : I64.of n = some c ↔ c.val = n := by
  unfold I64.of
  split
  · simp [Subtype.ext_iff, eq_comm]
  · rename_i outside
    refine ⟨nofun, ?_⟩
    rintro rfl
    exact absurd c.property outside

/-- What an operation on clock values fails with. -/
inductive ClockError where
  | outOfRange
  deriving DecidableEq

/-- What an operation on timestamps fails with. -/
inductive TimeError where
  | outOfRange

/-- The steps of `checked_clock_add`, `checked_clock_subtract`, `checked_time_add` and `checked_time_subtract`. -/
def checked {ε : Type} (error : ε) (op : Int → Int → Int) (left right : I64) : Except ε I64 :=
  match I64.of (op left.val right.val) with
  | some value => .ok value
  | none => .error error

theorem checked_eq_ok {ε : Type} {error : ε} {op : Int → Int → Int} {left right result : I64} :
    checked error op left right = .ok result ↔ result.val = op left.val right.val := by
  rw [← I64.of_eq_some, checked]
  cases I64.of (op left.val right.val) <;> simp

/-- The seconds of a result: both steps are checked. -/
def checkedTwice {ε : Type} (error : ε) (op : Int → Int → Int) (left right : I64) (bit : Bool) : Except ε I64 := do
  let combined ← checked error op left right
  checked error op combined (I64.bit bit)

theorem checkedTwice_eq_ok {ε : Type} {error : ε} {op : Int → Int → Int} {left right result : I64} {bit : Bool} :
    checkedTwice error op left right bit = .ok result ↔ result.val = op (op left.val right.val) (I64.bit bit).val ∧
        i64Min ≤ op left.val right.val ∧ op left.val right.val ≤ i64Max := by
  unfold checkedTwice
  constructor
  · intro done
    cases first : checked error op left right with
    | error e =>
      rw [first] at done
      cases done
    | ok combined =>
      rw [first] at done
      rw [← checked_eq_ok.mp first]
      exact ⟨checked_eq_ok.mp done, combined.property⟩
  · rintro ⟨exact_, inside⟩
    have first : checked error op left right = .ok ⟨_, inside⟩ := checked_eq_ok.mpr rfl
    rw [first]
    exact checked_eq_ok.mpr exact_

/-! ## 2. Seconds with nanoseconds -/

/-- `DurationState` and `TimestampState` -/
@[ext]
structure TimeState where
  seconds : I64
  nanoseconds : Nat
  below : nanoseconds < nanosecondsPerSecond
  deriving DecidableEq

namespace TimeState

variable {ε : Type}

def carry (self other : TimeState) : Bool := nanosecondsPerSecond ≤ self.nanoseconds + other.nanoseconds

def remainder (self other : TimeState) : Nat :=
  if self.carry other then self.nanoseconds + other.nanoseconds - nanosecondsPerSecond
  else self.nanoseconds + other.nanoseconds

def borrow (self other : TimeState) : Bool := self.nanoseconds < other.nanoseconds

def difference (self other : TimeState) : Nat :=
  if self.borrow other then nanosecondsPerSecond + self.nanoseconds - other.nanoseconds
  else self.nanoseconds - other.nanoseconds

theorem remainder_lt (self other : TimeState) : self.remainder other < nanosecondsPerSecond := by
  have := self.below
  have := other.below
  unfold remainder carry
  split <;> simp_all
  omega

theorem difference_lt (self other : TimeState) : self.difference other < nanosecondsPerSecond := by
  have := self.below
  unfold difference borrow
  split <;> simp_all <;> omega

/-- The steps of `Duration.checked_add` and `Timestamp.checked_add`. -/
def add (error : ε) (self other : TimeState) : Except ε TimeState :=
  (checkedTwice error (· + ·) self.seconds other.seconds (self.carry other)).map
    fun adjusted => ⟨adjusted, self.remainder other, self.remainder_lt other⟩

/-- The steps of the two `checked_subtract` and of `duration_since`. -/
def subtract (error : ε) (self other : TimeState) : Except ε TimeState :=
  (checkedTwice error (· - ·) self.seconds other.seconds (self.borrow other)).map
    fun adjusted => ⟨adjusted, self.difference other, self.difference_lt other⟩

def total (self : TimeState) : Int := self.seconds.val * nanosecondsPerSecond + self.nanoseconds

theorem total_eq_iff (self : TimeState) (seconds : Int) {nanoseconds : Nat} (below : nanoseconds < nanosecondsPerSecond) :
    self.total = seconds * nanosecondsPerSecond + nanoseconds ↔
      self.seconds.val = seconds ∧ self.nanoseconds = nanoseconds := by
  have := self.below
  unfold total nanosecondsPerSecond at *
  omega

variable {self other result : TimeState}

theorem total_inj : self.total = other.total ↔ self = other := by
  rw [TimeState.ext_iff, Subtype.ext_iff]
  exact self.total_eq_iff other.seconds.val other.below

theorem total_add (self other : TimeState) : self.total + other.total =
    (self.seconds.val + other.seconds.val + (I64.bit (self.carry other)).val) * nanosecondsPerSecond +
      (self.remainder other : Nat) := by
  unfold total remainder
  cases carried : self.carry other with
  | false =>
    simp only [Bool.false_eq_true, if_false, I64.bit]
    unfold nanosecondsPerSecond at *
    omega
  | true =>
    have := of_decide_eq_true carried
    simp only [if_true, I64.bit]
    unfold nanosecondsPerSecond at *
    omega

theorem total_subtract (self other : TimeState) : self.total - other.total =
    (self.seconds.val - other.seconds.val - (I64.bit (self.borrow other)).val) * nanosecondsPerSecond +
      (self.difference other : Nat) := by
  have := other.below
  unfold total difference
  cases borrowed : self.borrow other with
  | false =>
    have := of_decide_eq_false borrowed
    simp only [Bool.false_eq_true, if_false, I64.bit]
    unfold nanosecondsPerSecond at *
    omega
  | true =>
    simp only [if_true, I64.bit]
    unfold nanosecondsPerSecond at *
    omega

theorem map_eq_ok {outcome : Except ε I64} {rest : Nat} {below : rest < nanosecondsPerSecond} :
    outcome.map (fun adjusted => TimeState.mk adjusted rest below) = .ok result ↔
      outcome = .ok result.seconds ∧ result.nanoseconds = rest := by
  cases outcome with
  | error e => simp [Except.map]
  | ok adjusted => simp [Except.map, TimeState.ext_iff, eq_comm]

/-- **What an addition returns**: the exact sum, if the seconds fit before the carry too. -/
theorem add_eq_ok {error : ε} : self.add error other = .ok result ↔ result.total = self.total + other.total ∧
      i64Min ≤ self.seconds.val + other.seconds.val ∧ self.seconds.val + other.seconds.val ≤ i64Max := by
  rw [total_add, total_eq_iff _ _ (remainder_lt self other), add, map_eq_ok, checkedTwice_eq_ok]
  tauto

/-- **What a subtraction returns.** -/
theorem subtract_eq_ok {error : ε} : self.subtract error other = .ok result ↔
    result.total = self.total - other.total ∧
      i64Min ≤ self.seconds.val - other.seconds.val ∧ self.seconds.val - other.seconds.val ≤ i64Max := by
  rw [total_subtract, total_eq_iff _ _ (difference_lt self other), subtract, map_eq_ok, checkedTwice_eq_ok]
  tauto

/-! ## 3. Where an operation is exact -/

/-- The seconds are one below the range before the carry brings them back. -/
def LostCarry (self other : TimeState) : Prop :=
  self.seconds.val + other.seconds.val = i64Min - 1 ∧ self.carry other = true

/-- The seconds are one above the range before the borrow brings them back. -/
def LostBorrow (self other : TimeState) : Prop :=
  self.seconds.val - other.seconds.val = i64Max + 1 ∧ self.borrow other = true

theorem exists_total {seconds : Int} (inside : i64Min ≤ seconds ∧ seconds ≤ i64Max) {nanoseconds : Nat}
    (below : nanoseconds < nanosecondsPerSecond) :
    ∃ state : TimeState, state.total = seconds * nanosecondsPerSecond + nanoseconds :=
  ⟨⟨⟨seconds, inside⟩, nanoseconds, below⟩, rfl⟩

/-- **An addition is exact**: it succeeds with the exact sum whenever a state stands for that, unless the carry is
lost. -/
theorem add_exact_iff {error : ε} :
    (∀ result, self.add error other = .ok result ↔ result.total = self.total + other.total) ↔
      ¬ LostCarry self other := by
  simp only [add_eq_ok, and_iff_left_iff_imp]
  constructor
  · rintro all ⟨below, carried⟩
    obtain ⟨state, exact_⟩ := @exists_total i64Min (by decide) _ (self.remainder_lt other)
    have inside := all state (by rw [exact_, total_add, below, carried]; rfl)
    omega
  · intro kept result exact_
    rw [total_add, total_eq_iff _ _ (remainder_lt self other)] at exact_
    have inside := result.seconds.property
    unfold LostCarry I64.bit i64Min i64Max at *
    cases carried : self.carry other <;> simp [carried] at exact_ kept <;> omega

/-- **A subtraction is exact**, unless the borrow is lost. -/
theorem subtract_exact_iff {error : ε} :
    (∀ result, self.subtract error other = .ok result ↔ result.total = self.total - other.total) ↔
      ¬ LostBorrow self other := by
  simp only [subtract_eq_ok, and_iff_left_iff_imp]
  constructor
  · rintro all ⟨above, borrowed⟩
    obtain ⟨state, exact_⟩ := @exists_total i64Max (by decide) _ (self.difference_lt other)
    have inside := all state (by rw [exact_, total_subtract, above, borrowed]; rfl)
    omega
  · intro kept result exact_
    rw [total_subtract, total_eq_iff _ _ (difference_lt self other)] at exact_
    have inside := result.seconds.property
    unfold LostBorrow I64.bit i64Min i64Max at *
    cases borrowed : self.borrow other <;> simp [borrowed] at exact_ kept <;> omega

end TimeState

/-! ## 4. The operations -/

abbrev Duration : Type := TimeState

abbrev Timestamp : Type := TimeState

namespace Duration

/-- The constructor. -/
def construct (seconds : I64) (nanoseconds : Nat) : Except ClockError Duration :=
  if below : nanoseconds < nanosecondsPerSecond then .ok ⟨seconds, nanoseconds, below⟩ else .error .outOfRange

def checkedAdd (self other : Duration) : Except ClockError Duration := do
  let state ← self.add .outOfRange other
  construct state.seconds state.nanoseconds

def checkedSubtract (self other : Duration) : Except ClockError Duration := do
  let state ← self.subtract .outOfRange other
  construct state.seconds state.nanoseconds

/-- The constructor accepts what an operation hands it. -/
theorem bind_construct (outcome : Except ClockError TimeState) :
    (outcome >>= fun state => construct state.seconds state.nanoseconds) = outcome := by
  cases outcome with
  | error e => rfl
  | ok state =>
    change construct state.seconds state.nanoseconds = _
    rw [construct, dif_pos state.below]

theorem checkedAdd_eq (self other : Duration) : self.checkedAdd other = self.add .outOfRange other :=
  bind_construct _

theorem checkedSubtract_eq (self other : Duration) : self.checkedSubtract other = self.subtract .outOfRange other :=
  bind_construct _

end Duration

namespace Timestamp

def checkedAdd (self : Timestamp) (duration : Duration) : Except TimeError Timestamp := self.add .outOfRange duration

def checkedSubtract (self : Timestamp) (duration : Duration) : Except TimeError Timestamp :=
  self.subtract .outOfRange duration

def durationSince (self earlier : Timestamp) : Except TimeError Duration := self.subtract .outOfRange earlier

end Timestamp

/-- **Where the arithmetic of times is exact**: an operation returns the exact result whenever a value stands for it,
except where the carry or the borrow would bring the seconds back into their range; and what was added is taken off
again. -/
theorem arithmetic_exact_iff (self other : Duration) (timestamp earlier : Timestamp) :
    ((∀ result, self.checkedAdd other = .ok result ↔ result.total = self.total + other.total) ↔
      ¬ self.LostCarry other) ∧
    ((∀ result, self.checkedSubtract other = .ok result ↔ result.total = self.total - other.total) ↔
      ¬ self.LostBorrow other) ∧
    (∀ sum back, self.checkedAdd other = .ok sum → sum.checkedSubtract other = .ok back → back = self) ∧
    ((∀ result, timestamp.checkedAdd other = .ok result ↔ result.total = timestamp.total + other.total) ↔
      ¬ timestamp.LostCarry other) ∧
    ((∀ result, timestamp.checkedSubtract other = .ok result ↔ result.total = timestamp.total - other.total) ↔
      ¬ timestamp.LostBorrow other) ∧
    (∀ sum back, timestamp.checkedAdd other = .ok sum → sum.checkedSubtract other = .ok back → back = timestamp) ∧
    ((∀ result, timestamp.durationSince earlier = .ok result ↔ result.total = timestamp.total - earlier.total) ↔
      ¬ timestamp.LostBorrow earlier) := by
  have back_to {ε : Type} {error : ε} {self other sum back : TimeState} (added : self.add error other = .ok sum)
    (taken : sum.subtract error other = .ok back) : back = self := by
    have up := (TimeState.add_eq_ok.mp added).1
    have down := (TimeState.subtract_eq_ok.mp taken).1
    exact TimeState.total_inj.mp (by omega)
  simp only [Duration.checkedAdd_eq, Duration.checkedSubtract_eq]
  exact ⟨TimeState.add_exact_iff, TimeState.subtract_exact_iff, fun sum back => back_to, TimeState.add_exact_iff,
    TimeState.subtract_exact_iff, fun sum back => back_to, TimeState.subtract_exact_iff⟩

def oneAndAHalf : Duration := ⟨⟨1, by decide⟩, 500000000, by decide⟩

theorem arithmetic_exact_iff_oneAndAHalf :
    (oneAndAHalf.checkedAdd oneAndAHalf).toOption.map (·.total) = some 3000000000 ∧
      oneAndAHalf.checkedAdd oneAndAHalf = .ok ⟨⟨3, by decide⟩, 0, by decide⟩ :=
  ⟨by decide, ((arithmetic_exact_iff oneAndAHalf oneAndAHalf oneAndAHalf oneAndAHalf).1.mpr
    (by unfold TimeState.LostCarry; decide) _).mpr (by decide)⟩

/-- Six tenths into the first second of the range. -/
def first : Duration := ⟨⟨i64Min, by decide⟩, 600000000, by decide⟩

/-- Four tenths of a second back. -/
def backwards : Duration := ⟨⟨-1, by decide⟩, 600000000, by decide⟩

/-- **The carry is lost**: the sum is two tenths into the first second, and is refused. -/
theorem sum_in_range_refused : first.checkedAdd backwards = .error .outOfRange ∧
    ¬ ∀ result, first.checkedAdd backwards = .ok result ↔ result.total = first.total + backwards.total := by
  refine ⟨by decide, fun all => ?_⟩
  have refused := (all ⟨⟨i64Min, by decide⟩, 200000000, by decide⟩).mpr (by decide)
  exact absurd refused (by decide)

end Bray.Time
