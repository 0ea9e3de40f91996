/-
  File:      Bray/Guarantee/Ranges.lean
  Subject:   RANGE REFINEMENT (`refine_integer_range`, analysis/guarantee/integer/range.rs): the interval of a
    value, narrowed by the comparisons that are assumed of it.

  The other side of a comparison is refined in turn, so the search may come back to a value it is still at; a
  value has an entry in the table of ranges from the start, its conservative one. **Every entry is a bound that
  holds** (`MemoSound`), whatever is found later and wherever the budget ends: a refinement only uses entries
  and assumptions, and both hold in the interpretation.
-/
import Bray.Guarantee.Arithmetic
import Bray.Guarantee.Prove

namespace Bray.Guarantee

open List Option

/-! ## 1. Constants -/

namespace ExecutionCondition

def integerConstant : ExecutionCondition → Nat → Option (Int × Nat)
  | _, 0 => none
  | .literal value, budget + 1 =>
    match value.kind with
    | .integer value => some (value, budget)
    | _ => none
  | .operation operator [operand], budget + 1 => do
    let (value, budget) ← integerConstant operand budget
    match operator with
    | .add => some (value, budget)
    | .subtract => some (-value, budget)
    | _ => none
  | .operation operator [left, right], budget + 1 => do
    let (left, budget) ← integerConstant left budget
    let (right, budget) ← integerConstant right budget
    let range ← arithmeticRange operator (left, left) (right, right)
    if range.1 = range.2 then some (range.1, budget) else none
  | _, _ => none
termination_by structural c => c

end ExecutionCondition

/-! ## 2. Refinement -/

def reverseComparison : BoundOperator → BoundOperator
  | .less => .greater
  | .lessEqual => .greaterEqual
  | .greater => .less
  | .greaterEqual => .lessEqual
  | operator => operator

/-- The ranges found so far, the last one of a value first. -/
abbrev RangeMemo := List (ExecutionCondition × Option IntegerRange)

/-- A range, the table and what is left of the budget. -/
abbrev Refined := Option IntegerRange × RangeMemo × Nat

/-- What is known of a value halfway. -/
structure Narrowing where
  lower : Option Int
  upper : Option Int
  excluded : List Int
  ranges : RangeMemo
  budget : Nat

def raise (lower : Option Int) (bound : Int) : Option Int :=
  match lower with
  | some lower => some (max lower bound)
  | none => some bound

def cap (upper : Option Int) (bound : Int) : Option Int :=
  match upper with
  | some upper => some (min upper bound)
  | none => some bound

/-- A value compared with another whose range is known. -/
def Narrowing.narrow (state : Narrowing) (operator : BoundOperator) (holds : Bool) (minimum maximum : Int) :
  Narrowing :=
  match operator, holds with
  | .equal, true | .notEqual, false =>
    { state with lower := raise state.lower minimum, upper := cap state.upper maximum }
  | .notEqual, true | .equal, false =>
    if minimum = maximum then { state with excluded := minimum :: state.excluded } else state
  | .less, true | .greaterEqual, false => { state with upper := cap state.upper (maximum - 1) }
  | .lessEqual, true | .greater, false => { state with upper := cap state.upper maximum }
  | .greater, true | .lessEqual, false => { state with lower := raise state.lower (minimum + 1) }
  | .greaterEqual, true | .less, false => { state with lower := raise state.lower minimum }
  | _, _ => state

/-- The comparison of a value with another that a condition makes. -/
def relation (value condition : ExecutionCondition) : Option (BoundOperator × ExecutionCondition) :=
  match condition with
  | .operation operator [left, right] =>
    if left = value then some (operator, right)
    else if right = value then some (reverseComparison operator, left)
    else none
  | _ => none

/-- The range of the other side: of a constant, or refined in turn. -/
def boundsOf (recurse : ExecutionCondition → RangeMemo → Nat → Refined) (other : ExecutionCondition)
  (ranges : RangeMemo) (budget : Nat) : Refined :=
  match other.integerConstant ExecutionCondition.workLimit with
  | some (value, _) => (some (value, value), ranges, budget)
  | none => recurse other ranges budget

def consider (recurse : ExecutionCondition → RangeMemo → Nat → Refined) (value : ExecutionCondition)
  (state : Narrowing) (assumption : ExecutionCondition × Bool) : Narrowing :=
  match relation value assumption.1 with
  | none => state
  | some (operator, other) =>
    match boundsOf recurse other state.ranges state.budget with
    | (none, ranges, budget) => { state with ranges, budget }
    | (some bounds, ranges, budget) =>
      { state with ranges, budget }.narrow operator assumption.2 bounds.1 bounds.2

/-- An end moves past the excluded values, one at a time. -/
def skip (excluded : List Int) (step : Int) : Nat → Int → Int
  | 0, value => value
  | fuel + 1, value => if value ∈ excluded then skip excluded step fuel (value + step) else value

def Narrowing.conclude (value : ExecutionCondition) (state : Narrowing) : Refined :=
  match state.lower, state.upper with
  | some lower, some upper =>
    let lower := skip state.excluded 1 state.excluded.length lower
    let upper := skip state.excluded (-1) state.excluded.length upper
    let range := if lower ≤ upper then some (lower, upper) else none
    (range, (value, range) :: state.ranges, state.budget)
  | _, _ => (none, state.ranges, state.budget)

section Refine

variable (typedRange : ExecutionCondition → Option IntegerRange) (assumptions : Assumptions)

/-- The budget bounds how deep the search goes: with as much fuel it is never cut short. -/
def refineIntegerRangeWith : Nat → ExecutionCondition → Option IntegerRange → RangeMemo → Nat → Refined
  | 0, value, range, ranges, budget => ((ranges.lookup value).getD range, ranges, budget)
  | fuel + 1, value, range, ranges, budget =>
    match ranges.lookup value, budget with
    | some found, _ => (found, ranges, budget)
    | none, 0 => (range, ranges, 0)
    | none, budget + 1 =>
      (assumptions.foldl
        (consider (fun other => refineIntegerRangeWith fuel other (typedRange other)) value)
        ⟨range.map Prod.fst, range.map Prod.snd, [], (value, range) :: ranges, budget⟩).conclude value

def refineIntegerRange (value : ExecutionCondition) (range : Option IntegerRange) : Option IntegerRange :=
  (refineIntegerRangeWith typedRange assumptions ExecutionCondition.workLimit value range []
    ExecutionCondition.workLimit).1

end Refine

/-! ## 3. Integer interpretations -/

/-- **The integer that a term is**: its operations are exact; an operation that has no result, and every other
term, is worth what an interpretation says. -/
def integerValue (atom : ExecutionCondition → Int) : ExecutionCondition → Int
  | .literal data =>
    match data.kind with
    | .integer value => value
    | _ => atom (.literal data)
  | .operation operator [operand] =>
    match operator with
    | .add => integerValue atom operand
    | .subtract => -integerValue atom operand
    | _ => atom (.operation operator [operand])
  | .operation operator [left, right] =>
    (exactOperation operator (integerValue atom left) (integerValue atom right)).getD
      (atom (.operation operator [left, right]))
  | condition => atom condition
termination_by structural c => c

def Obeys (value : ExecutionCondition → Int) (assumptions : Assumptions) : Prop :=
  ∀ operator left right holds, (.operation operator [left, right], holds) ∈ assumptions →
    ∀ truth, foldOrdered operator (value left) (value right) = some truth → truth = holds

def Typed (value : ExecutionCondition → Int) (typedRange : ExecutionCondition → Option IntegerRange) : Prop :=
  ∀ term range, typedRange term = some range → Inside range (value term)

/-! ## 4. Constants are their integers -/

variable {atom : ExecutionCondition → Int}

theorem integerValue_binary (operator : BoundOperator) (left right : ExecutionCondition) {value : Int}
    (result : exactOperation operator (integerValue atom left) (integerValue atom right) = some value) :
    integerValue atom (.operation operator [left, right]) = value := by
  rw [integerValue, result]
  rfl

variable {operator : BoundOperator}

/-- An operation on two values that has bounds is defined, and they bound its result. -/
theorem exactOperation_of_range {l r : Int} {range : IntegerRange}
    (found : arithmeticRange operator (l, l) (r, r) = some range) :
    ∃ value, exactOperation operator l r = some value ∧ Inside range value := by
  have here : ∀ n : Int, Inside (n, n) n := fun n => ⟨le_rfl, le_rfl⟩
  -- the count of a shift or of a power is the right operand
  have counted : ∀ {maximum count : Nat}, narrow maximum r = some count → ¬ r < 0 ∧ r.toNat = count := by
    intro maximum count eq
    have := narrow_eq_some eq
    omega
  have shifted : ∀ {f : Int → Nat → Int}, shiftRange f (l, l) (r, r) = some range →
      ¬ r < 0 ∧ Inside range (f l r.toNat) := by
    intro f found
    obtain ⟨count, eq, rest⟩ := bind_eq_some_iff.mp found
    obtain ⟨_, _, ends⟩ := bind_eq_some_iff.mp rest
    rw [(counted eq).2]
    exact ⟨(counted eq).1, Lib.extremes_span ends (.of_mem (.head _))⟩
  have joined (pos : 0 ≤ l) (pos' : 0 ≤ r) := lor_xor_bounds pos pos'
    (natAbs_lt_two_pow pos le_rfl (le_max_left (bits l) (bits r)))
    (natAbs_lt_two_pow pos' le_rfl (le_max_right (bits l) (bits r)))
  unfold arithmeticRange at found
  split at found
  · cases found
  · cases operator with
    | add | subtract =>
      cases found
      exact ⟨_, rfl, le_rfl, le_rfl⟩
    | multiply => exact ⟨_, rfl, Lib.extremes_span found (.of_mem (.head _))⟩
    | divide =>
      by_cases zero : r = 0
      · subst zero
        cases found
      · exact ⟨_, if_neg zero, divideRange_sound found (here l) (here r) zero⟩
    | remainder =>
      by_cases zero : r = 0
      · subst zero
        cases found
      · exact ⟨_, if_neg zero, remainderRange_sound found (here l) (here r) zero⟩
    | shiftLeft | shiftRight => exact ⟨_, if_neg (shifted found).1, (shifted found).2⟩
    | exponentiate =>
      obtain ⟨count, eq, rest⟩ := bind_eq_some_iff.mp found
      obtain ⟨other, eq', ends⟩ := bind_eq_some_iff.mp rest
      obtain ⟨nonneg, count_eq⟩ := counted eq
      obtain ⟨-, other_eq⟩ := counted eq'
      exact ⟨_, if_neg nonneg, Lib.extremes_span ends (powers_span (here l) ⟨count_eq.ge, other_eq.le⟩)⟩
    | bitwiseAnd =>
      refine ⟨_, rfl, bitwiseRange_sound found (here l) (here r) fun nonneg nonneg' => ?_⟩
      obtain ⟨pos, left, right⟩ := land_nonneg nonneg nonneg'
      exact ⟨pos, le_min left right⟩
    | bitwiseOr =>
      exact ⟨_, rfl, bitwiseRange_sound found (here l) (here r) fun pos pos' => (joined pos pos').1⟩
    | bitwiseXor =>
      exact ⟨_, rfl, bitwiseRange_sound found (here l) (here r) fun pos pos' => (joined pos pos').2⟩
    | _ => cases found

/-- **A constant term is worth its constant.** -/
theorem integerConstant_sound (term : ExecutionCondition) {budget rest : Nat} {value : Int}
    (found : term.integerConstant budget = some (value, rest)) : integerValue atom term = value := by
  fun_induction ExecutionCondition.integerConstant term budget generalizing value rest with
  | case1 => cases found
  | case2 data budget value' kind =>
    cases found
    simp only [integerValue, kind]
  | case3 => cases found
  | case4 operator operand budget ih =>
    obtain ⟨⟨inner, left⟩, eq, rest'⟩ := bind_eq_some_iff.mp found
    have inner_eq := ih eq
    cases operator with
    | add =>
      cases rest'
      rw [integerValue, inner_eq]
    | subtract =>
      cases rest'
      rw [integerValue, inner_eq]
    | _ => cases rest'
  | case5 operator left right budget ihLeft ihRight =>
    obtain ⟨⟨l, afterLeft⟩, eqLeft, foundRight⟩ := bind_eq_some_iff.mp found
    obtain ⟨⟨r, afterRight⟩, eqRight, foundRange⟩ := bind_eq_some_iff.mp foundRight
    obtain ⟨⟨minimum, maximum⟩, bounds, point⟩ := bind_eq_some_iff.mp foundRange
    obtain ⟨same, ⟨⟩⟩ := ite_none_right_eq_some.mp point
    obtain rfl : minimum = maximum := same
    obtain ⟨exact, result, below, above⟩ := exactOperation_of_range bounds
    rw [← ihLeft eqLeft, ← ihRight _ eqRight] at result
    rw [integerValue_binary operator left right result]
    exact Int.le_antisymm above below
  | case6 => cases found

/-! ## 5. Refinement is sound -/

/-- Every range in the table holds. -/
def MemoSound (value : ExecutionCondition → Int) (ranges : RangeMemo) : Prop :=
  ∀ term range, (term, some range) ∈ ranges → Inside range (value term)

/-- What is known halfway holds. -/
structure Narrowing.Sound (value : ExecutionCondition → Int) (term : ExecutionCondition) (state : Narrowing) :
  Prop where
  lower : ∀ bound, state.lower = some bound → bound ≤ value term
  upper : ∀ bound, state.upper = some bound → value term ≤ bound
  excluded : value term ∉ state.excluded
  memo : MemoSound value state.ranges

variable {value : ExecutionCondition → Int} {term other : ExecutionCondition} {state : Narrowing}

variable {bound exact : Int}

theorem le_of_raise {lower : Option Int} {least : Int} (raised : raise lower bound = some least)
    (old : ∀ bound, lower = some bound → bound ≤ exact) (new : bound ≤ exact) : least ≤ exact := by
  cases lower with
  | none =>
    cases raised
    exact new
  | some lower =>
    cases raised
    exact max_le (old _ rfl) new

theorem le_of_cap {upper : Option Int} {greatest : Int} (capped : cap upper bound = some greatest)
    (old : ∀ bound, upper = some bound → exact ≤ bound) (new : exact ≤ bound) : exact ≤ greatest := by
  cases upper with
  | none =>
    cases capped
    exact new
  | some upper =>
    cases capped
    exact le_min (old _ rfl) new

/-- A comparison read from the other side. -/
theorem foldOrdered_reverse (operator : BoundOperator) (l r : Int) :
    foldOrdered (reverseComparison operator) l r = foldOrdered operator r l := by
  cases operator <;> simp [reverseComparison, foldOrdered, eq_comm]

/-- **Narrowing by a comparison that holds.** -/
theorem Narrowing.Sound.narrow (sound : state.Sound value term) {holds : Bool}
    {bounds : IntegerRange} (inside : Inside bounds (value other))
    (obeyed : ∀ truth, foldOrdered operator (value term) (value other) = some truth → truth = holds) :
    (state.narrow operator holds bounds.1 bounds.2).Sound value term := by
  obtain ⟨below, above⟩ := inside
  have raised : ∀ bound, bound ≤ value term → Narrowing.Sound value term { state with lower := raise state.lower bound } :=
    fun bound le => ⟨fun _ eq => le_of_raise eq sound.lower le, sound.upper, sound.excluded, sound.memo⟩
  have capped : ∀ bound, value term ≤ bound → Narrowing.Sound value term { state with upper := cap state.upper bound } :=
    fun bound le => ⟨sound.lower, fun _ eq => le_of_cap eq sound.upper le, sound.excluded, sound.memo⟩
  have equal : value term = value other → Narrowing.Sound value term
    { state with lower := raise state.lower bounds.1, upper := cap state.upper bounds.2 } :=
    fun same => ⟨fun _ eq => le_of_raise eq sound.lower (by omega), fun _ eq => le_of_cap eq sound.upper (by omega),
      sound.excluded, sound.memo⟩
  have unequal : value term ≠ value other → Narrowing.Sound value term
    (if bounds.1 = bounds.2 then { state with excluded := bounds.1 :: state.excluded } else state) := by
    intro differ
    split
    · refine ⟨sound.lower, sound.upper, fun mem => ?_, sound.memo⟩
      rcases mem_cons.mp mem with same | old
      · omega
      · exact sound.excluded old
    · exact sound
  cases operator <;> cases holds <;> simp only [foldOrdered, Option.some.injEq, forall_eq', decide_eq_true_eq,
    decide_eq_false_iff_not] at obeyed ⊢
  case equal.false => exact unequal obeyed
  case equal.true => exact equal obeyed
  case notEqual.false => exact equal (not_not.mp obeyed)
  case notEqual.true => exact unequal obeyed
  case less.false => exact raised _ (by omega)
  case less.true => exact capped _ (by omega)
  case lessEqual.false => exact raised _ (by omega)
  case lessEqual.true => exact capped _ (by omega)
  case greater.false => exact capped _ (by omega)
  case greater.true => exact raised _ (by omega)
  case greaterEqual.false => exact capped _ (by omega)
  case greaterEqual.true => exact raised _ (by omega)
  all_goals exact sound

/-- What a search returns holds, and so does the table it leaves. -/
structure RefinedSound (value : ExecutionCondition → Int) (term : ExecutionCondition) (refined : Refined) : Prop where
  range : ∀ range, refined.1 = some range → Inside range (value term)
  memo : MemoSound value refined.2.1

theorem boundsOf_sound {recurse : ExecutionCondition → RangeMemo → Nat → Refined} {ranges : RangeMemo} {budget : Nat}
    (sound : ∀ other ranges budget, MemoSound (integerValue atom) ranges →
      RefinedSound (integerValue atom) other (recurse other ranges budget))
    (memo : MemoSound (integerValue atom) ranges) :
    RefinedSound (integerValue atom) other (boundsOf recurse other ranges budget) := by
  unfold boundsOf
  split
  · rename_i constant rest eq
    refine ⟨?_, memo⟩
    rintro _ ⟨⟩
    have exact := @integerConstant_sound atom other _ _ _ eq
    exact ⟨le_of_eq exact.symm, le_of_eq exact⟩
  · exact sound other ranges budget memo

theorem relation_obeyed {assumptions : Assumptions} (obeys : Obeys value assumptions)
    {assumption : ExecutionCondition × Bool} (mem : assumption ∈ assumptions)
    (found : relation term assumption.1 = some (operator, other)) {truth : Bool}
    (compared : foldOrdered operator (value term) (value other) = some truth) : truth = assumption.2 := by
  obtain ⟨condition, holds⟩ := assumption
  unfold relation at found
  split at found
  · rename_i operator' left right eq
    cases eq
    split at found
    · rename_i same
      cases found
      cases same
      exact obeys _ _ _ _ mem _ compared
    · split at found
      · rename_i same
        cases found
        cases same
        rw [foldOrdered_reverse] at compared
        exact obeys _ _ _ _ mem _ compared
      · cases found
  · cases found

variable {recurse : ExecutionCondition → RangeMemo → Nat → Refined}

theorem consider_sound {assumptions : Assumptions} (obeys : Obeys (integerValue atom) assumptions)
    (search : ∀ other ranges budget, MemoSound (integerValue atom) ranges →
      RefinedSound (integerValue atom) other (recurse other ranges budget))
    {assumption : ExecutionCondition × Bool} (mem : assumption ∈ assumptions)
    (sound : state.Sound (integerValue atom) term) :
    (consider recurse term state assumption).Sound (integerValue atom) term := by
  unfold consider
  split
  · exact sound
  · rename_i operator other found
    have bounds := @boundsOf_sound _ other _ _ state.budget search sound.memo
    split
    · rename_i ranges budget eq
      rw [eq] at bounds
      exact ⟨sound.lower, sound.upper, sound.excluded, bounds.memo⟩
    · rename_i range ranges budget eq
      rw [eq] at bounds
      have kept : Narrowing.Sound (integerValue atom) term { state with ranges, budget } :=
        ⟨sound.lower, sound.upper, sound.excluded, bounds.memo⟩
      exact kept.narrow (bounds.range range rfl) fun _ compared => relation_obeyed obeys mem found compared

/-! An end that moves past excluded values does not move past one that is not. -/

theorem skip_up {excluded : List Int} (fresh : exact ∉ excluded) (fuel : Nat)
    (le : bound ≤ exact) : skip excluded 1 fuel bound ≤ exact := by
  induction fuel generalizing bound with
  | zero => exact le
  | succ fuel ih =>
    rw [skip]
    split
    · rename_i mem
      have differ : bound ≠ exact := fun same => fresh (same ▸ mem)
      exact ih (by omega)
    · exact le

theorem skip_down {excluded : List Int} (fresh : exact ∉ excluded) (fuel : Nat)
    (le : exact ≤ bound) : exact ≤ skip excluded (-1) fuel bound := by
  induction fuel generalizing bound with
  | zero => exact le
  | succ fuel ih =>
    rw [skip]
    split
    · rename_i mem
      have differ : bound ≠ exact := fun same => fresh (same ▸ mem)
      exact ih (by omega)
    · exact le

theorem Narrowing.Sound.conclude (sound : state.Sound value term) : RefinedSound value term (state.conclude term) := by
  unfold Narrowing.conclude
  split
  · rename_i lower upper eq eq'
    have below := skip_up sound.excluded state.excluded.length (sound.lower lower eq)
    have above := skip_down sound.excluded state.excluded.length (sound.upper upper eq')
    have range : ∀ range, (if skip state.excluded 1 state.excluded.length lower ≤
      skip state.excluded (-1) state.excluded.length upper then
        some (skip state.excluded 1 state.excluded.length lower,
          skip state.excluded (-1) state.excluded.length upper) else none) = some range →
      Inside range (value term) := by
      intro range found
      obtain ⟨_, ⟨⟩⟩ := ite_none_right_eq_some.mp found
      exact ⟨below, above⟩
    refine ⟨range, fun other bounds mem => ?_⟩
    rcases mem_cons.mp mem with same | old
    · obtain ⟨rfl, found⟩ := Prod.mk.inj same
      exact range bounds found.symm
    · exact sound.memo other bounds old
  · exact ⟨nofun, sound.memo⟩

/-- A list of assumptions, one after the other. -/
theorem foldl_consider_sound {assumptions : Assumptions} (obeys : Obeys (integerValue atom) assumptions)
    (search : ∀ other ranges budget, MemoSound (integerValue atom) ranges →
      RefinedSound (integerValue atom) other (recurse other ranges budget))
    (rest : Assumptions) (subset : rest ⊆ assumptions) (sound : state.Sound (integerValue atom) term) :
    (rest.foldl (consider recurse term) state).Sound (integerValue atom) term := by
  induction rest generalizing state with
  | nil => exact sound
  | cons first rest ih =>
    exact ih (fun _ mem => subset (.tail _ mem))
      (consider_sound obeys search (subset (.head _)) sound)

variable {typedRange : ExecutionCondition → Option IntegerRange} {assumptions : Assumptions}

theorem MemoSound.lookup {ranges : RangeMemo} (memo : MemoSound value ranges) {found : Option IntegerRange}
    (eq : ranges.lookup term = some found) (bounds : IntegerRange) (eq' : found = some bounds) :
    Inside bounds (value term) := by
  subst eq'
  obtain ⟨front, back, rfl, _⟩ := lookup_eq_some_iff.mp eq
  exact memo term bounds (mem_append_right _ (.head _))

/-- **The search is sound**, from any table that is, and wherever its budget ends. -/
theorem refineIntegerRangeWith_sound (obeys : Obeys (integerValue atom) assumptions)
    (typed : Typed (integerValue atom) typedRange) (fuel : Nat) (term : ExecutionCondition)
    {range : Option IntegerRange} {ranges : RangeMemo} {budget : Nat}
    (entry : ∀ bounds, range = some bounds → Inside bounds (integerValue atom term))
    (memo : MemoSound (integerValue atom) ranges) : RefinedSound (integerValue atom) term
      (refineIntegerRangeWith typedRange assumptions fuel term range ranges budget) := by
  induction fuel generalizing term range ranges budget with
  | zero =>
    unfold refineIntegerRangeWith
    cases eq : ranges.lookup term with
    | none => exact ⟨entry, memo⟩
    | some found => exact ⟨memo.lookup eq, memo⟩
  | succ fuel ih =>
    unfold refineIntegerRangeWith
    split
    · rename_i found eq
      exact ⟨memo.lookup eq, memo⟩
    · exact ⟨entry, memo⟩
    · refine (foldl_consider_sound obeys ?_ assumptions (List.Subset.refl _) ?_).conclude
      · exact fun other ranges budget memo => ih other (typed other) memo
      · refine ⟨?_, ?_, not_mem_nil, ?_⟩
        · intro bound eq
          obtain ⟨bounds, found, rfl⟩ := map_eq_some_iff.mp eq
          exact (entry bounds found).1
        · intro bound eq
          obtain ⟨bounds, found, rfl⟩ := map_eq_some_iff.mp eq
          exact (entry bounds found).2
        · intro other bounds mem
          rcases mem_cons.mp mem with same | old
          · obtain ⟨rfl, found⟩ := Prod.mk.inj same
            exact entry bounds found.symm
          · exact memo other bounds old

/-! ## 6. The search ends -/

section Budget

variable {recurse recurse' : ExecutionCondition → RangeMemo → Nat → Refined} {limit : Nat}

@[simp] theorem Narrowing.narrow_budget (state : Narrowing) (operator : BoundOperator) (holds : Bool) (minimum maximum : Int) :
    (state.narrow operator holds minimum maximum).budget = state.budget := by
  unfold Narrowing.narrow
  split
  all_goals first | rfl | (split <;> rfl)

theorem consider_budget_le (spends : ∀ other ranges budget, (recurse other ranges budget).2.2 ≤ budget)
    (assumption : ExecutionCondition × Bool) : (consider recurse term state assumption).budget ≤ state.budget := by
  unfold consider
  split
  · exact le_rfl
  · rename_i operator other _
    have spent : (boundsOf recurse other state.ranges state.budget).2.2 ≤ state.budget := by
      unfold boundsOf
      split
      · exact le_rfl
      · exact spends _ _ _
    split
    · rename_i eq
      rw [eq] at spent
      exact spent
    · rename_i eq
      rw [eq] at spent
      rw [Narrowing.narrow_budget]
      exact spent

theorem foldl_consider_budget_le (spends : ∀ other ranges budget, (recurse other ranges budget).2.2 ≤ budget)
    (rest : Assumptions) : (rest.foldl (consider recurse term) state).budget ≤ state.budget := by
  induction rest generalizing state with
  | nil => exact le_rfl
  | cons first rest ih => exact ih.trans (consider_budget_le spends first)

theorem Narrowing.conclude_budget (state : Narrowing) (term : ExecutionCondition) :
    (state.conclude term).2.2 = state.budget := by
  unfold Narrowing.conclude
  split <;> rfl

/-- Searching spends the budget. -/
theorem refineIntegerRangeWith_budget_le (fuel : Nat) (term : ExecutionCondition) (range : Option IntegerRange)
    (ranges : RangeMemo) (budget : Nat) :
    (refineIntegerRangeWith typedRange assumptions fuel term range ranges budget).2.2 ≤ budget := by
  induction fuel generalizing term range ranges budget with
  | zero =>
    exact le_rfl
  | succ fuel ih =>
    unfold refineIntegerRangeWith
    split
    · exact le_rfl
    · exact le_rfl
    · rw [Narrowing.conclude_budget]
      exact (foldl_consider_budget_le (fun other ranges budget => ih other _ ranges budget) assumptions).trans
        (Nat.le_succ _)

/-- Searches that agree below a limit give the same outcome where the budget is below it. -/
theorem foldl_consider_congr (spends : ∀ other ranges budget, (recurse other ranges budget).2.2 ≤ budget)
    (agree : ∀ other ranges budget, budget ≤ limit → recurse' other ranges budget = recurse other ranges budget)
    (rest : Assumptions) (within : state.budget ≤ limit) :
    rest.foldl (consider recurse' term) state = rest.foldl (consider recurse term) state := by
  induction rest generalizing state with
  | nil => rfl
  | cons first rest ih =>
    have same : consider recurse' term state first = consider recurse term state first := by
      have bounds : ∀ other, boundsOf recurse' other state.ranges state.budget =
        boundsOf recurse other state.ranges state.budget := by
        intro other
        unfold boundsOf
        split
        · rfl
        · exact agree _ _ _ within
      simp only [consider, bounds]
    rw [foldl_cons, foldl_cons, same]
    exact ih ((consider_budget_le spends first).trans within)

/-- **The budget ends the search**: fuel beyond it is never used. -/
theorem refineIntegerRangeWith_fuel (fuel more : Nat) (term : ExecutionCondition) (range : Option IntegerRange)
    (ranges : RangeMemo) (budget : Nat) (enough : budget ≤ fuel) :
    refineIntegerRangeWith typedRange assumptions (fuel + more) term range ranges budget =
      refineIntegerRangeWith typedRange assumptions fuel term range ranges budget := by
  induction fuel generalizing term range ranges budget with
  | zero =>
    obtain rfl := Nat.le_zero.mp enough
    cases more with
    | zero => rfl
    | succ more =>
      unfold refineIntegerRangeWith
      cases ranges.lookup term with
      | none => rfl
      | some found => rfl
  | succ fuel ih =>
    rw [Nat.succ_add_eq_add_succ]
    show refineIntegerRangeWith typedRange assumptions (fuel + more + 1) term range ranges budget = _
    unfold refineIntegerRangeWith
    cases ranges.lookup term with
    | some found => rfl
    | none =>
      cases budget with
      | zero => rfl
      | succ budget =>
        have within : budget ≤ fuel := Nat.le_of_succ_le_succ enough
        simp only
        rw [foldl_consider_congr (fun other ranges budget => refineIntegerRangeWith_budget_le fuel other _ ranges budget)
          (fun other ranges budget le => ih other _ ranges budget le) assumptions within]

end Budget

/-- An end that is known stays known. -/
def Narrowing.Closed (state : Narrowing) : Prop := state.lower.isSome = true ∧ state.upper.isSome = true

theorem consider_closed (closed : state.Closed)
    (assumption : ExecutionCondition × Bool) : (consider recurse term state assumption).Closed := by
  have raised : ∀ bound, (raise state.lower bound).isSome = true := by
    intro bound
    cases state.lower <;> rfl
  have capped : ∀ bound, (cap state.upper bound).isSome = true := by
    intro bound
    cases state.upper <;> rfl
  obtain ⟨low, high⟩ := closed
  unfold consider
  split
  · exact ⟨low, high⟩
  · split
    · exact ⟨low, high⟩
    · unfold Narrowing.narrow
      split <;> try split
      all_goals simp only [Narrowing.Closed, raised, capped, low, high, and_self]

theorem foldl_consider_closed (rest : Assumptions)
    (closed : state.Closed) : (rest.foldl (consider recurse term) state).Closed := by
  induction rest generalizing state with
  | nil => exact closed
  | cons first rest ih => exact ih (consider_closed closed first)

theorem Narrowing.Sound.conclude_isSome (sound : state.Sound value term) (closed : state.Closed) :
    (state.conclude term).1.isSome = true := by
  obtain ⟨lower, low⟩ := isSome_iff_exists.mp closed.1
  obtain ⟨upper, high⟩ := isSome_iff_exists.mp closed.2
  have below := skip_up sound.excluded state.excluded.length (sound.lower lower low)
  have above := skip_down sound.excluded state.excluded.length (sound.upper upper high)
  unfold Narrowing.conclude
  simp only [low, high]
  rw [if_pos (below.trans above)]
  rfl

/-- An interval that was known is not lost. -/
theorem refineIntegerRangeWith_isSome (obeys : Obeys (integerValue atom) assumptions)
    (typed : Typed (integerValue atom) typedRange) (fuel budget : Nat) {term : ExecutionCondition}
    {bounds : IntegerRange} (inside : Inside bounds (integerValue atom term)) :
    (refineIntegerRangeWith typedRange assumptions fuel term (some bounds) [] budget).1.isSome = true := by
  cases fuel with
  | zero => rfl
  | succ fuel =>
    cases budget with
    | zero => rfl
    | succ budget =>
      have start : Narrowing.Sound (integerValue atom) term
        ⟨some bounds.1, some bounds.2, [], [(term, some bounds)], budget⟩ := by
        refine ⟨?_, ?_, not_mem_nil, ?_⟩
        · rintro _ ⟨⟩
          exact inside.1
        · rintro _ ⟨⟩
          exact inside.2
        · intro other range mem
          cases mem_singleton.mp mem
          exact inside
      refine (foldl_consider_sound obeys ?_ assumptions (List.Subset.refl _) start).conclude_isSome
        (foldl_consider_closed assumptions ⟨rfl, rfl⟩)
      exact fun other ranges budget memo =>
        refineIntegerRangeWith_sound obeys typed fuel other (typed other) memo

/-! ## 7. Range refinement -/

/-- **Range refinement is sound and ends**: for every term, range and assumptions, in any order, and every
budget, the interval that is returned has the value of the term in every integer interpretation that the
assumptions and the types hold in; an interval that was known is not lost; and the budget ends the search. -/
theorem refineIntegerRange_sound (typedRange : ExecutionCondition → Option IntegerRange) (assumptions : Assumptions)
    (term : ExecutionCondition) (range : Option IntegerRange) (atom : ExecutionCondition → Int)
    (obeys : Obeys (integerValue atom) assumptions) (typed : Typed (integerValue atom) typedRange)
    (entry : ∀ bounds, range = some bounds → Inside bounds (integerValue atom term)) :
    (∀ bounds, refineIntegerRange typedRange assumptions term range = some bounds →
      Inside bounds (integerValue atom term)) ∧
    (range.isSome = true → (refineIntegerRange typedRange assumptions term range).isSome = true) ∧
    ∀ budget, (∀ bounds, (refineIntegerRangeWith typedRange assumptions budget term range [] budget).1 = some bounds →
      Inside bounds (integerValue atom term)) ∧
      ∀ more, refineIntegerRangeWith typedRange assumptions (budget + more) term range [] budget =
        refineIntegerRangeWith typedRange assumptions budget term range [] budget := by
  have nothing : MemoSound (integerValue atom) [] := fun _ _ mem => nomatch mem
  refine ⟨(refineIntegerRangeWith_sound obeys typed _ term entry nothing).range, ?_, fun budget =>
    ⟨(refineIntegerRangeWith_sound obeys typed _ term entry nothing).range,
      fun more => refineIntegerRangeWith_fuel budget more term range [] budget le_rfl⟩⟩
  intro known
  obtain ⟨bounds, rfl⟩ := isSome_iff_exists.mp known
  exact refineIntegerRangeWith_isSome obeys typed _ _ (entry bounds rfl)

/-- Two terms, each of which bounds the other. -/
theorem refineIntegerRange_sound_cycle : ∃ bounds,
    refineIntegerRange (fun term => if term = .result ∨ term = .expression 1 then some (0, 10) else none)
      [(.operation .lessEqual [.result, .expression 1], true), (.operation .less [.result, .expression 1], false)]
      .result (some (0, 10)) = some bounds ∧ Inside bounds 3 := by
  have obeys : Obeys (integerValue fun _ => 3)
    [(.operation .lessEqual [.result, .expression 1], true),
      (.operation .less [.result, .expression 1], false)] := by
    intro operator left right holds mem truth compared
    simp only [mem_cons, Prod.mk.injEq, ExecutionCondition.operation.injEq, List.cons.injEq, not_mem_nil,
      or_false, and_true] at mem
    rcases mem with ⟨⟨rfl, rfl, rfl⟩, rfl⟩ | ⟨⟨rfl, rfl, rfl⟩, rfl⟩ <;>
      simpa [foldOrdered, integerValue] using compared.symm
  have typed : Typed (integerValue fun _ => 3)
    fun term => if term = .result ∨ term = .expression 1 then some (0, 10) else none := by
    intro term range found
    obtain ⟨rfl | rfl, ⟨⟩⟩ := ite_none_right_eq_some.mp found <;> simp [integerValue, Inside]
  obtain ⟨sound, known, -⟩ := refineIntegerRange_sound _ _ .result (some (0, 10)) (fun _ => 3) obeys typed
    (fun bounds eq => by cases eq; decide)
  obtain ⟨bounds, found⟩ := isSome_iff_exists.mp (known rfl)
  exact ⟨bounds, found, sound bounds found⟩

end Bray.Guarantee
