/-
  File:      Bray/Guarantee/Closure.lean
  Subject:   THE CLOSURE OF TRUSTED FACTS (`execution_guarantees/trusted_implication.rs`): values of
    the parts of assumed disjunctions, propagated over a queue, and the operand of a
    disjunction that is left when the other one is false.

  The atoms are settled once, by the prover over the facts given; from then on values move from the
  operands to the conditions they are operands of, and new facts come from disjunctions alone:

  * `Sound` -- the invariant of the propagation: every value it has, and every fact, holds in every
    interpretation that satisfies the facts given;
  * `measure_step` -- a step adds a fact of the finite universe of parts, or shortens the paths that
    are left upwards from the queue, so the propagation ends;
  * **`trustedConditionClosure_laws`** -- the closure exists, is sound, and runs upon its own result
    add nothing from some run on. One run more may add facts (`rerun_adds`): what equality and
    comparison make of the new facts is looked at by the next run only.
-/
import Bray.Guarantee.Operators
import Mathlib

namespace Bray.Guarantee

open List

local instance assumptionsLawful : LawfulBEq (ExecutionCondition × Bool) := inferInstance

namespace ExecutionCondition

/-! ## 1. The parts of a condition -/

mutual
/-- The condition with what is reached through operations, entry guards and qualifiers. -/
def parts : ExecutionCondition → List ExecutionCondition
  | .operation operator operands => .operation operator operands :: partsAll operands
  | .entry condition captured => .entry condition captured :: parts condition
  | .trusted condition => .trusted condition :: parts condition
  | condition => [condition]
termination_by structural c => c
def partsAll : List ExecutionCondition → List ExecutionCondition
  | [] => []
  | x :: xs => parts x ++ partsAll xs
termination_by structural c => c
end

attribute [local simp] parts partsAll

theorem assumeAll_eq (xs : List ExecutionCondition) (value : Bool) :
    assumeAll xs value = xs.flatMap fun x => assumeWith x value := by
  induction xs with
  | nil => rfl
  | cons x xs ih => rw [assumeAll, ih, flatMap_cons]

theorem partsAll_eq (xs : List ExecutionCondition) : partsAll xs = xs.flatMap parts := by
  induction xs with
  | nil => rfl
  | cons x xs ih => rw [partsAll, ih, flatMap_cons]

def size (c : ExecutionCondition) : Nat := c.parts.length

theorem size_operation (operator : BoundOperator) (operands : List ExecutionCondition) :
    (ExecutionCondition.operation operator operands).size = (operands.map size).sum + 1 := by
  rw [size, parts, length_cons, partsAll_eq, length_flatMap]
  rfl

theorem size_entry (c : ExecutionCondition) (captured : Bool) :
    (ExecutionCondition.entry c captured).size = c.size + 1 := by
  rw [size, parts, length_cons, size]

theorem size_trusted (c : ExecutionCondition) : (ExecutionCondition.trusted c).size = c.size + 1 := by
  rw [size, parts, length_cons, size]

theorem self_mem_parts (c : ExecutionCondition) : c ∈ c.parts := by
  cases c <;> simp [parts]

theorem size_lt_of_mem {operator : BoundOperator} {operands : List ExecutionCondition}
    {x : ExecutionCondition} (hx : x ∈ operands) :
    x.size < (ExecutionCondition.operation operator operands).size := by
  rw [size_operation]
  have := le_sum_of_mem (mem_map_of_mem (f := size) hx)
  omega

/-- **Induction over the parts of a condition.** -/
theorem partsInduction {p : ExecutionCondition → Prop}
    (step : ∀ c, (∀ d, d.size < c.size → p d) → p c) (c : ExecutionCondition) : p c := by
  generalize e : c.size = n
  induction n using Nat.strongRecOn generalizing c with
  | _ n ih => exact step c fun d hd => ih d.size (e ▸ hd) d rfl

theorem parts_trans (c : ExecutionCondition) : ∀ d ∈ c.parts, ∀ x ∈ d.parts, x ∈ c.parts := by
  induction c using partsInduction with
  | step c ih =>
    intro d hd x hx
    cases c with
    | operation operator operands =>
      rw [parts, partsAll_eq] at hd ⊢
      rcases mem_cons.mp hd with rfl | hd
      · rwa [parts, partsAll_eq] at hx
      · obtain ⟨y, hy, hd⟩ := mem_flatMap.mp hd
        exact mem_cons_of_mem _
          (mem_flatMap.mpr ⟨y, hy, ih y (size_lt_of_mem hy) d hd x hx⟩)
    | entry condition captured =>
      rcases mem_cons.mp hd with rfl | hd
      · rwa [parts] at hx
      · exact .tail _ (ih condition (by rw [size_entry]; omega) d hd x hx)
    | trusted condition =>
      rcases mem_cons.mp hd with rfl | hd
      · rwa [parts] at hx
      · exact .tail _ (ih condition (by rw [size_trusted]; omega) d hd x hx)
    | _ =>
      obtain rfl : d = _ := by simpa [parts] using hd
      exact hx

variable {c : ExecutionCondition}

theorem assumeWhole_parts {value : Bool}
    {fact : ExecutionCondition × Bool} (hf : fact ∈ assumeWhole c value) : fact.1 ∈ c.parts := by
  unfold assumeWhole at hf
  split at hf
  · cases hf
  · obtain rfl := mem_singleton.mp hf
    exact self_mem_parts c

theorem assumeWith_parts (c : ExecutionCondition) : ∀ value, ∀ fact ∈ assumeWith c value, fact.1 ∈ c.parts := by
  induction c using partsInduction with
  | step c ih =>
    intro value fact hf
    have operation (operator : BoundOperator) (operands : List ExecutionCondition)
      (e : c = .operation operator operands) (v : Bool) (mem : fact ∈ assumeAll operands v) :
      fact.1 ∈ c.parts := by
      subst e
      rw [assumeAll_eq] at mem
      obtain ⟨y, hy, mem⟩ := mem_flatMap.mp mem
      rw [parts, partsAll_eq]
      exact mem_cons_of_mem _
        (mem_flatMap.mpr ⟨y, hy, ih y (size_lt_of_mem hy) v fact mem⟩)
    unfold assumeWith at hf
    split at hf
    · cases hf
    · next condition captured =>
      split at hf
      · cases hf
      · split at hf
        · exact mem_cons_of_mem _
            (ih condition (by rw [size_entry]; omega) value fact hf)
        · exact assumeWhole_parts hf
    · next condition =>
      split at hf
      · cases hf
      · rcases mem_append.mp hf with hf | hf
        · exact assumeWhole_parts hf
        · exact mem_cons_of_mem _
            (ih condition (by rw [size_trusted]; omega) value fact hf)
    · next operand =>
      refine operation _ _ rfl (!value) ?_
      rw [assumeAll_eq, flatMap_singleton]
      exact hf
    · next operands => exact operation _ _ rfl true hf
    · next operands => exact operation _ _ rfl false hf
    · split at hf
      · cases hf
      · exact assumeWhole_parts hf

/-! ## 2. The conditions whose values are propagated -/

def isDisjunction : ExecutionCondition → Bool
  | .operation .logicalOr _ => true
  | _ => false

/-- The conditions looked into for others to be recorded. -/
def opened : ExecutionCondition → List ExecutionCondition
  | .operation operator operands =>
    if operator = .logicalNot ∨ operator = .logicalAnd ∨ operator = .logicalOr then operands else []
  | .entry condition _ | .trusted condition => [condition]
  | _ => []

/-- The conditions a value is computed from. -/
def booleanChildren : ExecutionCondition → List ExecutionCondition
  | .operation operator operands =>
    if operator = .logicalNot ∨ operator = .logicalAnd ∨ operator = .logicalOr then operands else []
  | .entry condition _ => [condition]
  | _ => []

/-- The assumed disjunctions among the first facts. -/
def clauses (trusted ordinary : Assumptions) : List ExecutionCondition :=
  ((trusted ++ ordinary.filter fun fact => ¬ fact.1.containsTrusted).take workLimit).filterMap
    fun fact => if fact.2 ∧ isDisjunction fact.1 then some fact.1 else none

/-- The conditions on the stack and what they are made of, each once. -/
def record : Nat → List ExecutionCondition → List ExecutionCondition → List ExecutionCondition
  | 0, _, conditions => conditions
  | _ + 1, [], conditions => conditions
  | fuel + 1, condition :: pending, conditions =>
    if condition ∈ conditions ∨ conditions.length = workLimit * workLimit then
      record fuel pending conditions
    else record fuel ((opened condition).reverse ++ pending) (conditions ++ [condition])

def conditionsOf (trusted ordinary : Assumptions) : List ExecutionCondition :=
  record ((clauses trusted ordinary).map size).sum (clauses trusted ordinary).reverse []

def position (conditions : List ExecutionCondition) (condition : ExecutionCondition) : Option Nat :=
  conditions.findIdx? (· = condition)

structure ProofTerm where
  value : Option Bool
  asserted : Option Bool
  parents : List Nat
  assertedDisjunction : Bool

/-- The positions of the conditions that the one at `index` is a child of. -/
def parentsOf (conditions : List ExecutionCondition) (index : Nat) : List Nat :=
  (List.range conditions.length).flatMap fun parent =>
    match conditions[parent]? with
    | none => []
    | some condition => (booleanChildren condition).filterMap fun child =>
      if position conditions child = some index then some parent else none

def explicit (assumptions : Assumptions) (condition : ExecutionCondition) : Option Bool :=
  if (condition, true) ∈ assumptions then some true
  else if (condition, false) ∈ assumptions then some false
  else none

/-- What the facts given say of a condition. Ordinary facts say nothing of qualified ones. -/
def assertedOf (trusted ordinary : Assumptions) : ExecutionCondition → Option Bool
  | .unknown | .entry _ _ => none
  | .boolean value => some value
  | .trusted condition => explicit trusted (.trusted condition)
  | condition =>
    if booleanChildren condition ≠ [] then
      (explicit trusted condition).or
        (if condition.containsTrusted then none else explicit ordinary condition)
    else (prove trusted condition workLimit).1.or (prove ordinary condition workLimit).1

def startTerm (trusted ordinary : Assumptions) (conditions : List ExecutionCondition) (index : Nat)
  (condition : ExecutionCondition) : ProofTerm :=
  { value := assertedOf trusted ordinary condition
    asserted := assertedOf trusted ordinary condition
    parents := parentsOf conditions index
    assertedDisjunction := isDisjunction condition ∧ (explicit trusted condition = some true ∨
      ¬ condition.containsTrusted ∧ explicit ordinary condition = some true) }

/-! ## 3. The propagation -/

structure Propagation where
  terms : List ProofTerm
  queue : List Nat
  known : Assumptions

def valueAt (conditions : List ExecutionCondition) (terms : List ProofTerm)
  (condition : ExecutionCondition) : Option Bool :=
  (position conditions condition).bind fun index => (terms[index]?).bind ProofTerm.value

/-- The value that the values of the operands give. -/
def derived (value : ExecutionCondition → Option Bool) : ExecutionCondition → Option Bool
  | .operation .logicalNot [child] => (value child).map not
  | .operation .logicalAnd [left, right] => conjunction (value left) (value right)
  | .operation .logicalOr [left, right] => disjunction (value left) (value right)
  | .entry condition _ => value condition
  | _ => none

def Propagation.setTerm (state : Propagation) (index : Nat) (term : ProofTerm) : Propagation :=
  { state with terms := state.terms.set index term }

/-- A new fact asserts the value of its condition and wakes the conditions above it. -/
def Propagation.insertFact (conditions : List ExecutionCondition) (state : Propagation)
  (fact : ExecutionCondition × Bool) : Propagation :=
  if fact ∈ state.known then state
  else
    let state := { state with known := state.known ++ [fact] }
    match position conditions fact.1 with
    | none => state
    | some index =>
      match state.terms[index]? with
      | none => state
      | some term =>
        let asserted := some (term.asserted.getD false || fact.2)
        let waked := if term.value ≠ asserted then term.parents else []
        let term := { term with asserted, value := asserted }
        if fact.2 ∧ isDisjunction fact.1 then
          { state.setTerm index { term with assertedDisjunction := true } with
            queue := state.queue ++ waked ++ [index] }
        else { state.setTerm index term with queue := state.queue ++ waked }

/-- The operands of a disjunction that are left when the other one is false. -/
def established (value : ExecutionCondition → Option Bool) :
  List ExecutionCondition → List ExecutionCondition
  | [left, right] =>
    (if value left = some false then [right] else []) ++
      if value right = some false then [left] else []
  | _ => []

/-- The value of one condition is computed again. -/
def Propagation.update (conditions : List ExecutionCondition) (state : Propagation) (index : Nat)
  (condition : ExecutionCondition) (term : ProofTerm) : Propagation :=
  let next := term.asserted.or (derived (valueAt conditions state.terms) condition)
  if term.value ≠ next then
    { state.setTerm index { term with value := next } with queue := state.queue ++ term.parents }
  else state

/-- One condition from the queue. -/
def Propagation.step (conditions : List ExecutionCondition) (state : Propagation) (index : Nat) :
  Propagation :=
  match conditions[index]?, state.terms[index]? with
  | some condition, some term =>
    let state := state.update conditions index condition term
    if term.assertedDisjunction then
      ((established (valueAt conditions state.terms) (booleanChildren condition)).flatMap
        fun operand => assumeWith operand true).foldl (Propagation.insertFact conditions) state
    else state
  | _, _ => state

/-- The queue is worked off, if the fuel lasts. -/
def Propagation.run (conditions : List ExecutionCondition) : Nat → Propagation → Option Propagation
  | 0, state => if state.queue = [] then some state else none
  | fuel + 1, state =>
    match state.queue with
    | [] => some state
    | index :: queue =>
      Propagation.run conditions fuel ({ state with queue }.step conditions index)

variable {conditions : List ExecutionCondition} {state : Propagation}

theorem Propagation.run_nil (empty : state.queue = []) (fuel : Nat) : state.run conditions fuel = some state := by
  cases fuel with
  | zero => rw [Propagation.run, if_pos empty]
  | succ fuel => rw [Propagation.run, empty]

theorem Propagation.run_zero {index : Nat} {queue : List Nat} (waits : state.queue = index :: queue) :
    state.run conditions 0 = none := by
  rw [Propagation.run, if_neg (by rw [waits]; exact cons_ne_nil _ _)]

theorem Propagation.run_cons {index : Nat} {queue : List Nat} (waits : state.queue = index :: queue) (fuel : Nat) :
    state.run conditions (fuel + 1) = ({ state with queue }.step conditions index).run conditions fuel := by
  rw [Propagation.run, waits]

def startOf (trusted ordinary : Assumptions) (conditions : List ExecutionCondition) : Propagation :=
  { terms := conditions.mapIdx (startTerm trusted ordinary conditions)
    queue := List.range conditions.length
    known := trusted }

/-- **`trusted_condition_closure`**, if the fuel lasts. -/
def trustedConditionClosure (fuel : Nat) (trusted ordinary : Assumptions) : Option Assumptions :=
  ((startOf trusted ordinary (conditionsOf trusted ordinary)).run
    (conditionsOf trusted ordinary) fuel).map Propagation.known

/-! ### Where the conditions come from -/

theorem opened_parts {d : ExecutionCondition} (h : d ∈ opened c) : d ∈ c.parts := by
  cases c with
  | operation operator operands =>
    rw [opened] at h
    split at h
    · rw [parts, partsAll_eq]
      exact .tail _ (mem_flatMap.mpr ⟨d, h, self_mem_parts d⟩)
    · cases h
  | entry condition captured | trusted condition =>
    obtain rfl : d = condition := by simpa [opened] using h
    exact .tail _ (self_mem_parts d)
  | _ => simp [opened] at h

theorem opened_size (c : ExecutionCondition) : ((opened c).map size).sum < c.size := by
  cases c with
  | operation operator operands =>
    rw [opened, size_operation]
    split
    · omega
    · simp
  | entry condition captured => simp [opened, size_entry]
  | trusted condition => simp [opened, size_trusted]
  | _ => simp [opened, size, parts]

theorem record_parts {fuel : Nat} {pending : List ExecutionCondition}
    (h : c ∈ record fuel pending conditions) : c ∈ conditions ∨ ∃ d ∈ pending, c ∈ d.parts := by
  induction fuel generalizing pending conditions with
  | zero => exact .inl h
  | succ fuel ih =>
    cases pending with
    | nil => exact .inl h
    | cons condition pending =>
      rw [record] at h
      split at h
      · refine (ih h).imp_right ?_
        rintro ⟨d, hd, hc⟩
        exact ⟨d, .tail _ hd, hc⟩
      · rcases ih h with h | ⟨d, hd, hc⟩
        · refine (mem_append.mp h).imp_right fun h => ?_
          obtain rfl := mem_singleton.mp h
          exact ⟨c, (.head _), self_mem_parts c⟩
        · refine .inr ?_
          rcases mem_append.mp hd with hd | hd
          · exact ⟨condition, (.head _), parts_trans condition d (opened_parts (mem_reverse.mp hd)) c hc⟩
          · exact ⟨d, .tail _ hd, hc⟩

theorem conditionsOf_parts {trusted ordinary : Assumptions}
    (h : c ∈ conditionsOf trusted ordinary) : ∃ fact ∈ trusted ++ ordinary, c ∈ fact.1.parts := by
  rcases record_parts h with h | ⟨d, hd, hc⟩
  · cases h
  · obtain ⟨fact, taken, found⟩ := mem_filterMap.mp (mem_reverse.mp hd)
    obtain rfl : fact.1 = d := by
      split at found
      · exact Option.some.inj found
      · cases found
    refine ⟨fact, ?_, hc⟩
    rcases mem_append.mp (mem_of_mem_take taken) with mem | mem
    · exact mem_append_left _ mem
    · exact mem_append_right _ (mem_of_mem_filter mem)

theorem position_eq_some {index : Nat} (h : position conditions c = some index) : conditions[index]? = some c := by
  obtain ⟨inside, found, _⟩ := findIdx?_eq_some_iff_getElem.mp h
  rw [getElem?_eq_getElem inside]
  simpa using found

end ExecutionCondition

namespace Interpretation

open ExecutionCondition

variable {I : Interpretation}

/-! ## 4. Soundness -/

theorem eval_or {operands : List ExecutionCondition} {v : Bool}
    (h : I.eval (.operation .logicalOr operands) = some (.bool v)) : ∃ left right,
      operands = [left, right] ∧ disjunction (I.truth (I.eval left)) (I.truth (I.eval right)) = some v := by
  rw [eval] at h
  match operands with
  | [] | [_] | _ :: _ :: _ :: _ => simp [evalList, operate] at h
  | [left, right] => exact ⟨left, right, rfl, by simpa [evalList, operate] using h⟩

theorem disjunction_true {x y : Option Bool} (h : disjunction x y = some true) :
    (x = some false → y = some true) ∧ (y = some false → x = some true) := by
  rcases x with _ | _ | _ <;> rcases y with _ | _ | _ <;> simp_all [disjunction]

variable {c : ExecutionCondition}

theorem explicit_sound {assumptions : Assumptions} (hA : I.Satisfies assumptions)
    {v : Bool} (h : explicit assumptions c = some v) : I.eval c = some (.bool v) := by
  unfold explicit at h
  split at h
  · next mem =>
    obtain rfl := Option.some.inj h
    exact hA _ mem
  · split at h
    · next mem =>
      obtain rfl := Option.some.inj h
      exact hA _ mem
    · cases h

variable {trusted ordinary : Assumptions}

theorem assertedOf_sound (hT : I.Satisfies trusted) (hO : I.Satisfies ordinary) {v : Bool}
    (h : assertedOf trusted ordinary c = some v) : I.eval c = some (.bool v) := by
  have open_ (c : ExecutionCondition) (h : (if booleanChildren c ≠ [] then
    (explicit trusted c).or (if c.containsTrusted then none else explicit ordinary c)
    else (prove trusted c workLimit).1.or (prove ordinary c workLimit).1) = some v) :
    I.eval c = some (.bool v) := by
    split at h
    · rcases Option.or_eq_some_iff.mp h with h | ⟨_, h⟩
      · exact explicit_sound hT h
      · split at h
        · cases h
        · exact explicit_sound hO h
    · rcases Option.or_eq_some_iff.mp h with h | ⟨_, h⟩
      · exact prove_sound hT h
      · exact prove_sound hO h
  cases c with
  | unknown | entry _ _ => cases h
  | boolean value =>
    obtain rfl := Option.some.inj h
    simp only [eval]
  | trusted condition => exact explicit_sound hT h
  | _ => exact open_ _ h

theorem derived_sound {value : ExecutionCondition → Option Bool}
    (hV : ∀ c v, value c = some v → I.eval c = some (.bool v)) {v : Bool}
    (h : derived value c = some v) : I.eval c = some (.bool v) := by
  have known (x : ExecutionCondition) (w : Bool) (hw : value x = some w) :
    I.truth (I.eval x) = some w := truth_eq_some.mpr (hV x w hw)
  unfold derived at h
  split at h
  · next child =>
    obtain ⟨w, hw, rfl⟩ := Option.map_eq_some_iff.mp h
    rw [eval_not, Bool.not_not]
    exact hV child w hw
  · next left right =>
    simp only [eval, evalList, operate, conjunction_mono (known left) (known right) h, Option.map_some]
  · next left right =>
    simp only [eval, evalList, operate, disjunction_mono (known left) (known right) h, Option.map_some]
  · simpa only [eval] using hV _ v h
  · cases h

/-- What is left of a disjunction that holds. -/
theorem established_sound {value : ExecutionCondition → Option Bool}
    (hV : ∀ c v, value c = some v → I.eval c = some (.bool v)) {x : ExecutionCondition}
    (disjunct : isDisjunction c) (hc : I.eval c = some (.bool true))
    (hx : x ∈ established value (booleanChildren c)) : I.eval x = some (.bool true) := by
  unfold isDisjunction at disjunct
  split at disjunct
  · next operands =>
    obtain ⟨left, right, rfl, both⟩ := eval_or hc
    obtain ⟨toRight, toLeft⟩ := disjunction_true both
    have children : booleanChildren (.operation .logicalOr [left, right]) = [left, right] := rfl
    rw [children, established, mem_append] at hx
    rcases hx with hx | hx
    · split at hx
      · next falsity =>
        obtain rfl := mem_singleton.mp hx
        exact truth_eq_some.mp (toRight (truth_eq_some.mpr (hV left _ falsity)))
      · cases hx
    · split at hx
      · next falsity =>
        obtain rfl := mem_singleton.mp hx
        exact truth_eq_some.mp (toLeft (truth_eq_some.mpr (hV right _ falsity)))
      · cases hx
  · cases disjunct

/-- What a term says of its condition holds. -/
structure TermSound (I : Interpretation) (c : ExecutionCondition) (term : ProofTerm) : Prop where
  value : ∀ v, term.value = some v → I.eval c = some (.bool v)
  asserted : ∀ v, term.asserted = some v → I.eval c = some (.bool v)
  disjunction : term.assertedDisjunction → isDisjunction c ∧ I.eval c = some (.bool true)

/-- **The invariant of the propagation**: every value and every fact holds. -/
structure Sound (I : Interpretation) (conditions : List ExecutionCondition) (state : Propagation) :
  Prop where
  terms : ∀ (index : Nat) c term, conditions[index]? = some c → state.terms[index]? = some term → I.TermSound c term
  known : I.Satisfies state.known

variable {conditions : List ExecutionCondition} {state : Propagation}

section

variable (h : I.Sound conditions state)
include h

theorem Sound.valueAt (c : ExecutionCondition) (v : Bool)
    (hv : valueAt conditions state.terms c = some v) : I.eval c = some (.bool v) := by
  obtain ⟨index, at_, found⟩ := Option.bind_eq_some_iff.mp hv
  obtain ⟨term, ht, value⟩ := Option.bind_eq_some_iff.mp found
  exact (h.terms index c term (position_eq_some at_) ht).value v value

theorem Sound.setTerm {index : Nat} (at_ : conditions[index]? = some c) (term : ProofTerm) (queue : List Nat)
    (ht : I.TermSound c term) : I.Sound conditions { state.setTerm index term with queue } := by
  refine ⟨fun other d found hd hf => ?_, h.known⟩
  simp only [Propagation.setTerm, getElem?_set] at hf
  split at hf
  · next same =>
    split at hf
    · obtain rfl := Option.some.inj hf
      obtain rfl := Option.some.inj (at_.symm.trans (same ▸ hd))
      exact ht
    · cases hf
  · exact h.terms other d found hd hf

theorem Sound.insertFact {fact : ExecutionCondition × Bool}
    (hf : I.eval fact.1 = some (.bool fact.2)) : I.Sound conditions (state.insertFact conditions fact) := by
  unfold Propagation.insertFact
  split
  · exact h
  · have more : I.Sound conditions { state with known := state.known ++ [fact] } := by
      refine ⟨h.terms, fun x hx => ?_⟩
      rcases mem_append.mp hx with hx | hx
      · exact h.known x hx
      · obtain rfl := mem_singleton.mp hx
        exact hf
    dsimp only
    split
    · exact more
    · next index at_ =>
      split
      · exact more
      · next term ht =>
        have found := position_eq_some at_
        have old := h.terms index fact.1 term found ht
        have agrees : (term.asserted.getD false || fact.2) = fact.2 := by
          cases e : term.asserted with
          | none => rfl
          | some v =>
            have same := (old.asserted v e).symm.trans hf
            obtain rfl : v = fact.2 := by simpa using same
            exact Bool.or_self _
        rw [agrees]
        have value (v : Bool) (hv : some fact.2 = some v) : I.eval fact.1 = some (.bool v) := by
          obtain rfl := Option.some.inj hv
          exact hf
        split
        · next disjunct =>
          refine more.setTerm found _ _ ⟨value, value, fun _ => ⟨disjunct.2, ?_⟩⟩
          rw [hf, disjunct.1]
        · exact more.setTerm found _ _ ⟨value, value, old.disjunction⟩

theorem Sound.insertFacts {facts : Assumptions} (hf : I.Satisfies facts) :
    I.Sound conditions (facts.foldl (Propagation.insertFact conditions) state) := by
  induction facts generalizing state with
  | nil => exact h
  | cons fact facts ih =>
    exact ih (h.insertFact (hf fact (.head _))) fun x hx =>
      hf x (.tail _ hx)

theorem Sound.update {index : Nat}
    {term : ProofTerm} (at_ : conditions[index]? = some c) (ht : state.terms[index]? = some term) :
    I.Sound conditions (state.update conditions index c term) := by
  have old := h.terms index c term at_ ht
  unfold Propagation.update
  dsimp only
  split
  · refine h.setTerm at_ _ _ ⟨fun v hv => ?_, old.asserted, old.disjunction⟩
    rcases Option.or_eq_some_iff.mp hv with hv | ⟨_, hv⟩
    · exact old.asserted v hv
    · exact derived_sound h.valueAt hv
  · exact h

end

/-- **A step keeps the invariant.** -/
theorem Sound.step (hI : I.Qualified) (h : I.Sound conditions state) (index : Nat) :
    I.Sound conditions (state.step conditions index) := by
  unfold Propagation.step
  split
  · next c term at_ ht =>
    have updated := h.update at_ ht
    split
    · next asserted =>
      obtain ⟨disjunct, holds⟩ := (h.terms index c term at_ ht).disjunction asserted
      refine updated.insertFacts fun fact hf => ?_
      obtain ⟨x, hx, hf⟩ := mem_flatMap.mp hf
      exact assumeWith_sound hI x true (established_sound updated.valueAt disjunct holds hx) fact hf
    · exact updated
  · exact h

theorem Sound.run (hI : I.Qualified) (h : I.Sound conditions state) {fuel : Nat}
    {result : Propagation} (hr : state.run conditions fuel = some result) : I.Sound conditions result := by
  induction fuel generalizing state with
  | zero =>
    match eq : state.queue with
    | [] => exact Option.some.inj ((Propagation.run_nil eq 0).symm.trans hr) ▸ h
    | _ :: _ =>
      rw [Propagation.run_zero eq] at hr
      cases hr
  | succ fuel ih =>
    match eq : state.queue with
    | [] => exact Option.some.inj ((Propagation.run_nil eq _).symm.trans hr) ▸ h
    | index :: queue =>
      rw [Propagation.run_cons eq] at hr
      have popped : I.Sound conditions { state with queue } := ⟨h.terms, h.known⟩
      exact ih (popped.step hI index) hr

theorem sound_start (hT : I.Satisfies trusted) (hO : I.Satisfies ordinary) :
    I.Sound conditions (startOf trusted ordinary conditions) := by
  refine ⟨fun index c term at_ ht => ?_, hT⟩
  simp only [startOf, getElem?_mapIdx, at_, Option.map_some, Option.some.injEq] at ht
  subst ht
  refine ⟨fun v hv => assertedOf_sound hT hO hv, fun v hv => assertedOf_sound hT hO hv, fun asserted => ?_⟩
  obtain ⟨disjunct, known⟩ := of_decide_eq_true asserted
  refine ⟨disjunct, ?_⟩
  rcases known with known | ⟨_, known⟩
  · exact explicit_sound hT known
  · exact explicit_sound hO known

/-- **The closure is sound.** -/
theorem trustedConditionClosure_sound (hI : I.Qualified) {known : Assumptions}
    {fuel : Nat} (h : trustedConditionClosure fuel trusted ordinary = some known)
    (hT : I.Satisfies trusted) (hO : I.Satisfies ordinary) : I.Satisfies known := by
  obtain ⟨result, hr, rfl⟩ := Option.map_eq_some_iff.mp h
  exact ((sound_start hT hO).run hI hr).known

end Interpretation

namespace ExecutionCondition

/-! ## 5. The propagation ends -/

variable {conditions : List ExecutionCondition} {state : Propagation}

/-- The facts there can be. -/
def allFacts (conditions : List ExecutionCondition) : Finset (ExecutionCondition × Bool) :=
  (conditions.flatMap parts).toFinset ×ˢ Finset.univ

theorem mem_allFacts {fact : ExecutionCondition × Bool} :
    fact ∈ allFacts conditions ↔ ∃ c ∈ conditions, fact.1 ∈ c.parts := by
  simp [allFacts]

/-- How many of them are missing. -/
def missing (conditions : List ExecutionCondition) (known : Assumptions) : Nat :=
  ((allFacts conditions).filter (· ∉ known)).card

theorem missing_lt {known : Assumptions} {fact : ExecutionCondition × Bool}
    (hu : fact ∈ allFacts conditions) (new : fact ∉ known) :
    missing conditions (known ++ [fact]) < missing conditions known := by
  refine Finset.card_lt_card ⟨fun x hx => ?_, fun sub => ?_⟩
  · obtain ⟨hx, out⟩ := Finset.mem_filter.mp hx
    exact Finset.mem_filter.mpr ⟨hx, fun mem => out (mem_append_left _ mem)⟩
  · have mem := sub (Finset.mem_filter.mpr ⟨hu, new⟩)
    exact (Finset.mem_filter.mp mem).2 (by simp)

def sizeAt (conditions : List ExecutionCondition) (index : Nat) : Nat :=
  (conditions[index]?.map size).getD 0

/-- How many steps a condition on the queue may cost: there are no more than `width` conditions right
  above another, and those are larger. -/
def weight (conditions : List ExecutionCondition) (width height index : Nat) : Nat :=
  (width + 1) ^ (height - sizeAt conditions index)

def queueWeight (conditions : List ExecutionCondition) (width height : Nat) (queue : List Nat) :
  Nat :=
  (queue.map (weight conditions width height)).sum

/-- The conditions above a condition are larger and not too many. -/
def Shaped (conditions : List ExecutionCondition) (width height : Nat) (terms : List ProofTerm) :
  Prop :=
  ∀ (index : Nat) term, terms[index]? = some term → term.parents.length ≤ width ∧
    ∀ parent ∈ term.parents, sizeAt conditions index < sizeAt conditions parent ∧ sizeAt conditions parent ≤ height

variable {width height fuel : Nat}

section

variable {index : Nat} {terms : List ProofTerm} {term : ProofTerm}
variable (h : Shaped conditions width height terms) (ht : terms[index]? = some term)
include h ht

theorem Shaped.set (changed : ProofTerm) (same : changed.parents = term.parents) :
    Shaped conditions width height (terms.set index changed) := by
  intro other found hf
  simp only [getElem?_set] at hf
  split at hf
  · next e =>
    split at hf
    · obtain rfl := Option.some.inj hf
      rw [same, ← e]
      exact h index term ht
    · cases hf
  · exact h other found hf

theorem weight_parents :
    queueWeight conditions width height term.parents < weight conditions width height index := by
  obtain ⟨few, larger⟩ := h index term ht
  have each : ∀ w ∈ term.parents.map (weight conditions width height),
    w ≤ (width + 1) ^ (height - sizeAt conditions index - 1) := by
    intro w hw
    obtain ⟨parent, hp, rfl⟩ := mem_map.mp hw
    obtain ⟨above, _⟩ := larger parent hp
    exact Nat.pow_le_pow_right (Nat.succ_pos _) (by omega)
  have total := sum_le_card_nsmul _ _ each
  rw [length_map, smul_eq_mul] at total
  rcases Nat.eq_zero_or_pos term.parents.length with none | some
  · rw [none, Nat.zero_mul] at total
    exact Nat.lt_of_le_of_lt total (Nat.pow_pos (Nat.succ_pos _))
  · obtain ⟨parent, hp⟩ := exists_mem_of_length_pos some
    obtain ⟨above, below⟩ := larger parent hp
    have exponent : height - sizeAt conditions index = height - sizeAt conditions index - 1 + 1 := by omega
    have positive : 0 < (width + 1) ^ (height - sizeAt conditions index - 1) :=
      Nat.pow_pos (Nat.succ_pos _)
    calc queueWeight conditions width height term.parents
      ≤ term.parents.length * (width + 1) ^ (height - sizeAt conditions index - 1) := total
      _ ≤ width * (width + 1) ^ (height - sizeAt conditions index - 1) :=
        Nat.mul_le_mul_right _ few
      _ < (width + 1) * (width + 1) ^ (height - sizeAt conditions index - 1) :=
        Nat.mul_lt_mul_of_pos_right (Nat.lt_succ_self _) positive
      _ = weight conditions width height index := by
        rw [weight, exponent, Nat.pow_succ, Nat.mul_comm, Nat.add_sub_cancel]

end

theorem insertFact_known (state : Propagation) (fact : ExecutionCondition × Bool) :
    state.insertFact conditions fact = state ∧ fact ∈ state.known ∨
      fact ∉ state.known ∧ (state.insertFact conditions fact).known = state.known ++ [fact] := by
  unfold Propagation.insertFact
  split
  · next mem => exact .inl ⟨rfl, mem⟩
  · next new =>
    refine .inr ⟨new, ?_⟩
    dsimp only
    split
    · rfl
    · split
      · rfl
      · split <;> rfl

theorem Shaped.insertFact (h : Shaped conditions width height state.terms) (fact : ExecutionCondition × Bool) :
    Shaped conditions width height (state.insertFact conditions fact).terms := by
  unfold Propagation.insertFact
  split
  · exact h
  · dsimp only
    split
    · exact h
    · split
      · exact h
      · next term ht =>
        split
        · exact h.set ht _ rfl
        · exact h.set ht _ rfl

/-- Inserting such facts changes nothing, or fewer are missing. -/
theorem insertFacts_missing {facts : Assumptions} (hu : ∀ fact ∈ facts, fact ∈ allFacts conditions) :
    facts.foldl (Propagation.insertFact conditions) state = state ∨
      missing conditions (facts.foldl (Propagation.insertFact conditions) state).known <
        missing conditions state.known := by
  induction facts generalizing state with
  | nil => exact .inl rfl
  | cons fact facts ih =>
    have rest := fun (state : Propagation) =>
      @ih state fun x hx => hu x (.tail _ hx)
    rcases @insertFact_known conditions state fact with ⟨same, _⟩ | ⟨new, known⟩
    · rw [foldl_cons, same]
      exact rest state
    · have fewer := missing_lt (hu fact (.head _)) new
      rw [← known] at fewer
      refine .inr ?_
      rcases rest (state.insertFact conditions fact) with same | less
      · rw [foldl_cons, same]
        exact fewer
      · exact less.trans fewer

theorem Shaped.insertFacts {facts : Assumptions} (h : Shaped conditions width height state.terms) :
    Shaped conditions width height (facts.foldl (Propagation.insertFact conditions) state).terms := by
  induction facts generalizing state with
  | nil => exact h
  | cons fact facts ih => exact ih (h.insertFact fact)

theorem booleanChildren_parts {c d : ExecutionCondition} (h : d ∈ booleanChildren c) : d ∈ c.parts := by
  refine opened_parts ?_
  cases c with
  | operation operator operands => exact h
  | entry condition captured => exact h
  | _ => simp [booleanChildren] at h

theorem established_mem {value : ExecutionCondition → Option Bool} {children : List ExecutionCondition}
    {x : ExecutionCondition} (hx : x ∈ established value children) : x ∈ children := by
  unfold established at hx
  split at hx
  · rcases mem_append.mp hx with hx | hx
    · split at hx
      · simp_all
      · cases hx
    · split at hx
      · simp_all
      · cases hx
  · cases hx

/-- What a step may insert is one of them. -/
theorem established_allFacts {value : ExecutionCondition → Option Bool} {c : ExecutionCondition}
    (hc : c ∈ conditions) : ∀ fact ∈ (established value (booleanChildren c)).flatMap
      fun operand => assumeWith operand true, fact ∈ allFacts conditions := by
  intro fact hf
  obtain ⟨x, hx, hf⟩ := mem_flatMap.mp hf
  exact mem_allFacts.mpr ⟨c, hc, parts_trans c x (booleanChildren_parts (established_mem hx)) _
    (assumeWith_parts x true fact hf)⟩

/-- **A step makes fewer facts missing, or the queue lighter.** -/
theorem measure_step {width height index : Nat} {queue : List Nat}
    (h : Shaped conditions width height state.terms) :
    Shaped conditions width height ({ state with queue }.step conditions index).terms ∧
      (missing conditions ({ state with queue }.step conditions index).known < missing conditions state.known ∨
        ({ state with queue }.step conditions index).known = state.known ∧
          queueWeight conditions width height ({ state with queue }.step conditions index).queue <
            queueWeight conditions width height (index :: queue)) := by
  have lighter : queueWeight conditions width height queue <
    queueWeight conditions width height (index :: queue) := by
    simp only [queueWeight, map_cons, sum_cons]
    have : 0 < weight conditions width height index := Nat.pow_pos (Nat.succ_pos _)
    omega
  unfold Propagation.step
  split
  · next c term at_ ht =>
    have updated : Shaped conditions width height
      ({ state with queue }.update conditions index c term).terms ∧
      ({ state with queue }.update conditions index c term).known = state.known ∧
      queueWeight conditions width height
        ({ state with queue }.update conditions index c term).queue <
          queueWeight conditions width height (index :: queue) := by
      unfold Propagation.update
      dsimp only
      split
      · refine ⟨h.set ht _ rfl, rfl, ?_⟩
        have parents := weight_parents h ht
        simp only [queueWeight, map_append, sum_append, map_cons, sum_cons] at parents ⊢
        omega
      · exact ⟨h, rfl, lighter⟩
    obtain ⟨shaped, known, light⟩ := updated
    split
    · refine ⟨shaped.insertFacts, ?_⟩
      rcases @insertFacts_missing conditions ({ state with queue }.update conditions index c term) _
        (established_allFacts (mem_of_getElem? at_)) with same | fewer
      · rw [same]
        exact .inr ⟨known, light⟩
      · rw [known] at fewer
        exact .inl fewer
    · exact ⟨shaped, .inr ⟨known, light⟩⟩
  · exact ⟨h, .inr ⟨rfl, lighter⟩⟩

/-- **The propagation ends.** -/
theorem run_ends (state : Propagation) (h : Shaped conditions width height state.terms) :
    ∃ fuel result, state.run conditions fuel = some result := by
  generalize em : missing conditions state.known = m
  induction m using Nat.strongRecOn generalizing state with
  | _ m outer =>
    generalize ew : queueWeight conditions width height state.queue = w
    induction w using Nat.strongRecOn generalizing state with
    | _ w inner =>
      match eq : state.queue with
      | [] => exact ⟨0, state, Propagation.run_nil eq 0⟩
      | index :: queue =>
        obtain ⟨shaped, less⟩ := @measure_step conditions state width height index queue h
        have further : ∃ fuel result, ({ state with queue }.step conditions index).run conditions fuel =
            some result := by
          rcases less with less | ⟨known, light⟩
          · exact outer _ (em ▸ less) _ shaped rfl
          · exact inner _ (by rw [← ew, eq]; exact light) _ shaped (by rw [known, em]) rfl
        obtain ⟨fuel, result, done⟩ := further
        exact ⟨fuel + 1, result, (Propagation.run_cons eq fuel).trans done⟩

theorem run_more {result : Propagation} (h : state.run conditions fuel = some result)
    (more : Nat) : state.run conditions (fuel + more) = some result := by
  induction fuel generalizing state with
  | zero =>
    match eq : state.queue with
    | [] => exact (Propagation.run_nil eq _).trans ((Propagation.run_nil eq 0).symm.trans h)
    | _ :: _ =>
      rw [Propagation.run_zero eq] at h
      cases h
  | succ fuel ih =>
    match eq : state.queue with
    | [] => exact (Propagation.run_nil eq _).trans ((Propagation.run_nil eq _).symm.trans h)
    | index :: queue =>
      rw [Nat.add_right_comm, Propagation.run_cons eq]
      rw [Propagation.run_cons eq] at h
      exact ih h

theorem booleanChildren_size {c d : ExecutionCondition} (h : d ∈ booleanChildren c) : d.size < c.size := by
  have opens : d ∈ opened c := by
    cases c with
    | operation operator operands => exact h
    | entry condition captured => exact h
    | _ => simp [booleanChildren] at h
  exact Nat.lt_of_le_of_lt (le_sum_of_mem (mem_map_of_mem opens)) (opened_size c)

theorem shaped_start (trusted ordinary : Assumptions) (conditions : List ExecutionCondition) : Shaped conditions
      ((List.range conditions.length).map fun index => (parentsOf conditions index).length).sum
      (conditions.map size).sum (startOf trusted ordinary conditions).terms := by
  intro index term ht
  obtain ⟨c, found, rfl⟩ : ∃ c, conditions[index]? = some c ∧
    startTerm trusted ordinary conditions index c = term := by
    simpa [startOf, getElem?_mapIdx] using ht
  obtain ⟨inside, _⟩ := List.getElem_of_getElem? found
  refine ⟨?_, fun parent hp => ?_⟩
  · exact le_sum_of_mem (mem_map_of_mem (mem_range.mpr inside))
  · obtain ⟨above, _, hp⟩ := mem_flatMap.mp hp
    split at hp
    · cases hp
    · next condition atParent =>
      obtain ⟨child, hc, hp⟩ := mem_filterMap.mp hp
      split at hp
      · next at_ =>
        obtain rfl := Option.some.inj hp
        obtain rfl := Option.some.inj ((position_eq_some at_).symm.trans found)
        have bounded := le_sum_of_mem
          (mem_map_of_mem (f := size) (mem_of_getElem? atParent))
        simpa [sizeAt, found, atParent] using ⟨booleanChildren_size hc, bounded⟩
      · cases hp

/-- **There is a closure**, whatever more fuel there is. -/
theorem trustedConditionClosure_ends (trusted ordinary : Assumptions) :
    ∃ fuel known, ∀ more, trustedConditionClosure (fuel + more) trusted ordinary = some known := by
  obtain ⟨fuel, result, done⟩ := run_ends _
    (shaped_start trusted ordinary (conditionsOf trusted ordinary))
  refine ⟨fuel, result.known, fun more => ?_⟩
  rw [trustedConditionClosure, run_more done more, Option.map_some]

/-! ## 6. Closures of closures -/

/-- What a propagation does to the facts: none is lost, the new ones are parts of conditions. -/
structure Extends (conditions : List ExecutionCondition) (before after : Assumptions) : Prop where
  kept : ∀ fact ∈ before, fact ∈ after
  new : ∀ fact ∈ after, fact ∈ before ∨ fact ∈ allFacts conditions

theorem Extends.rfl (known : Assumptions) : Extends conditions known known :=
  ⟨fun _ h => h, fun _ h => .inl h⟩

theorem Extends.trans {x y z : Assumptions} (h : Extends conditions x y)
    (g : Extends conditions y z) : Extends conditions x z := by
  refine ⟨fun fact hf => g.kept fact (h.kept fact hf), fun fact hf => ?_⟩
  rcases g.new fact hf with hf | hf
  · exact h.new fact hf
  · exact .inr hf

theorem extends_insertFacts {facts : Assumptions} (hu : ∀ fact ∈ facts, fact ∈ allFacts conditions)
    (state : Propagation) :
    Extends conditions state.known (facts.foldl (Propagation.insertFact conditions) state).known := by
  induction facts generalizing state with
  | nil => exact Extends.rfl _
  | cons fact facts ih =>
    have rest := ih (fun x hx => hu x (.tail _ hx))
      (state.insertFact conditions fact)
    refine Extends.trans ?_ rest
    rcases @insertFact_known conditions state fact with ⟨same, _⟩ | ⟨_, known⟩
    · rw [same]
      exact Extends.rfl _
    · rw [known]
      refine ⟨fun x hx => mem_append_left _ hx, fun x hx => ?_⟩
      rcases mem_append.mp hx with hx | hx
      · exact .inl hx
      · obtain rfl := mem_singleton.mp hx
        exact .inr (hu x (.head _))

theorem extends_step (state : Propagation) (index : Nat) :
    Extends conditions state.known (state.step conditions index).known := by
  unfold Propagation.step
  split
  · next c term at_ ht =>
    have updated : (state.update conditions index c term).known = state.known := by
      unfold Propagation.update
      dsimp only
      split <;> rfl
    split
    · rw [← updated]
      exact extends_insertFacts (established_allFacts (mem_of_getElem? at_)) _
    · rw [updated]
      exact Extends.rfl _
  · exact Extends.rfl _

theorem extends_run {result : Propagation} (h : state.run conditions fuel = some result) :
    Extends conditions state.known result.known := by
  induction fuel generalizing state with
  | zero =>
    match eq : state.queue with
    | [] => exact Option.some.inj ((Propagation.run_nil eq 0).symm.trans h) ▸ Extends.rfl _
    | _ :: _ =>
      rw [Propagation.run_zero eq] at h
      cases h
  | succ fuel ih =>
    match eq : state.queue with
    | [] => exact Option.some.inj ((Propagation.run_nil eq _).symm.trans h) ▸ Extends.rfl _
    | index :: queue =>
      rw [Propagation.run_cons eq] at h
      exact (extends_step { state with queue } index).trans (ih h)

theorem trustedConditionClosure_extends {trusted ordinary known : Assumptions}
    (h : trustedConditionClosure fuel trusted ordinary = some known) :
    Extends (conditionsOf trusted ordinary) trusted known := by
  obtain ⟨result, hr, rfl⟩ := Option.map_eq_some_iff.mp h
  exact extends_run hr

/-- An ascending chain within a finite set comes to rest. -/
theorem chain_rests {α : Type} [DecidableEq α] (whole : Finset α) (chain : Nat → Finset α)
    (ascends : ∀ k, chain k ⊆ chain (k + 1)) (within : ∀ k, chain k ⊆ whole) :
    ∃ n, ∀ m, n ≤ m → chain (m + 1) ⊆ chain m := by
  have monotone : Monotone chain := monotone_nat_of_le_succ ascends
  let cards : Nat →o Natᵒᵈ := ⟨fun k => OrderDual.toDual (whole \ chain k).card, fun i j hij =>
    Finset.card_le_card (Finset.sdiff_subset_sdiff (Finset.Subset.refl _) (monotone hij))⟩
  obtain ⟨n, rests⟩ := WellFoundedGT.monotone_chain_condition cards
  refine ⟨n, fun m hm x hx => ?_⟩
  have same : (whole \ chain m).card = (whole \ chain (m + 1)).card :=
    (rests m hm).symm.trans (rests (m + 1) (by omega))
  have sub : whole \ chain (m + 1) ⊆ whole \ chain m :=
    Finset.sdiff_subset_sdiff (Finset.Subset.refl _) (ascends m)
  have equal := Finset.eq_of_subset_of_card_le sub same.le
  by_contra out
  have mem : x ∈ whole \ chain m := Finset.mem_sdiff.mpr ⟨within _ hx, out⟩
  rw [← equal] at mem
  exact (Finset.mem_sdiff.mp mem).2 hx

/-- **Runs upon their own results come to rest.** -/
theorem reruns_rest {ordinary : Assumptions} {starts results : Nat → Assumptions}
    (closes : ∀ k, ∃ fuel, trustedConditionClosure fuel (starts k) ordinary = some (results k))
    (again : ∀ k fact, fact ∈ starts (k + 1) ↔ fact ∈ results k) :
    ∃ n, ∀ m, n ≤ m → ∀ fact ∈ results m, fact ∈ starts m := by
  have extends_ (k : Nat) : Extends (conditionsOf (starts k) ordinary) (starts k) (results k) :=
    (closes k).elim fun _ h => trustedConditionClosure_extends h
  let whole := allFacts ((starts 0 ++ ordinary).map Prod.fst)
  have mem_whole (fact : ExecutionCondition × Bool) :
    fact ∈ whole ↔ ∃ x ∈ starts 0 ++ ordinary, fact.1 ∈ x.1.parts := by
    simp only [whole, mem_allFacts, mem_map, exists_exists_and_eq_and]
  have within (k : Nat) : ∀ fact ∈ starts k, fact ∈ whole := by
    induction k with
    | zero =>
      intro fact hf
      exact (mem_whole fact).mpr ⟨fact, mem_append_left _ hf, self_mem_parts _⟩
    | succ k ih =>
      intro fact hf
      rcases (extends_ k).new fact ((again k fact).mp hf) with hf | hf
      · exact ih fact hf
      · obtain ⟨c, hc, hp⟩ := mem_allFacts.mp hf
        obtain ⟨x, hx, hc⟩ := conditionsOf_parts hc
        rcases mem_append.mp hx with hx | hx
        · obtain ⟨y, hy, hx⟩ := (mem_whole x).mp (ih x hx)
          exact (mem_whole fact).mpr ⟨y, hy, parts_trans y.1 c (parts_trans y.1 x.1 hx c hc) fact.1 hp⟩
        · exact (mem_whole fact).mpr ⟨x, mem_append_right _ hx, parts_trans x.1 c hc fact.1 hp⟩
  obtain ⟨n, rests⟩ := chain_rests whole (fun k => (starts k).toFinset)
    (fun k fact hf => by
      have hf := (extends_ k).kept fact (mem_toFinset.mp hf)
      exact mem_toFinset.mpr ((again k fact).mpr hf))
    (fun k fact hf => within k fact (mem_toFinset.mp hf))
  refine ⟨n, fun m hm fact hf => ?_⟩
  exact mem_toFinset.mp (rests m hm (mem_toFinset.mpr ((again m fact).mpr hf)))

/-- **THE LAWS OF THE CLOSURE**: it is there after finitely many steps; it keeps the facts given, and
  what it adds holds wherever they hold, the ordinary ones included; and runs upon their own
  results add nothing from some run on. -/
theorem trustedConditionClosure_laws (trusted ordinary : Assumptions) :
    (∃ fuel known, ∀ more, trustedConditionClosure (fuel + more) trusted ordinary = some known) ∧
    (∀ fuel known, trustedConditionClosure fuel trusted ordinary = some known → (∀ fact ∈ trusted, fact ∈ known) ∧
      ∀ I : Interpretation, I.Qualified → I.Satisfies trusted → I.Satisfies ordinary → I.Satisfies known) ∧
    ∀ starts results : Nat → Assumptions, starts 0 = trusted →
      (∀ k, ∃ fuel, trustedConditionClosure fuel (starts k) ordinary = some (results k)) →
      (∀ k fact, fact ∈ starts (k + 1) ↔ fact ∈ results k) →
        ∃ n, ∀ m, n ≤ m → ∀ fact ∈ results m, fact ∈ starts m := by
  refine ⟨trustedConditionClosure_ends trusted ordinary, fun fuel known h => ?_,
    fun starts results _ closes again => reruns_rest closes again⟩
  exact ⟨(trustedConditionClosure_extends h).kept, fun I hI hT hO =>
    Interpretation.trustedConditionClosure_sound hI h hT hO⟩

/-- The supplied inputs, by position. -/
def argument (ordinal : Nat) : ExecutionCondition := .input ⟨.argument ordinal, []⟩

def either (left right : ExecutionCondition) : ExecutionCondition :=
  .operation .logicalOr [left, right]

def lessThan (left right : ExecutionCondition) : ExecutionCondition := .operation .less [left, right]

/-- The first input is true, the last one false. -/
def oneTrue : Interpretation :=
  standard fun
    | .input ⟨.argument 0, []⟩ => some (.bool true)
    | .input ⟨.argument 3, []⟩ => some (.bool false)
    | _ => none

/-- The first run finds `i < j`, and only the next one that `j < i` is false, so that the disjunction
  with `y` leaves `y`. And it may be an ordinary fact that an operand of a trusted disjunction is
  false: what is left of the disjunction need not hold where the trusted facts do. -/
theorem rerun_adds : (∃ trusted known again : Assumptions, ∃ fuel fact,
    trustedConditionClosure fuel trusted [] = some known ∧
    trustedConditionClosure fuel known [] = some again ∧ fact ∈ again ∧ fact ∉ known) ∧
    ∃ trusted ordinary known : Assumptions, ∃ fuel fact, ∃ I : Interpretation,
      trustedConditionClosure fuel trusted ordinary = some known ∧ fact ∈ known ∧
      I.Transparent ∧ I.Satisfies trusted ∧ I.eval fact.1 = some (.bool !fact.2) := by
  let given : Assumptions := [(either (argument 0) (lessThan (argument 1) (argument 2)), true),
    (either (lessThan (argument 2) (argument 1)) (argument 3), true), (argument 0, false)]
  let found : ExecutionCondition × Bool := (lessThan (argument 1) (argument 2), true)
  refine ⟨⟨given, given ++ [found], given ++ [found, (argument 3, true)], 16, (argument 3, true),
    by decide, by decide, by decide, by decide⟩,
    ⟨[(either (argument 0) (argument 3), true)], [(argument 0, false)],
      [(either (argument 0) (argument 3), true), (argument 3, true)], 16, (argument 3, true),
      oneTrue, by decide, by decide, fun _ _ => rfl, ?_, ?_⟩⟩
  · intro fact hf
    obtain rfl := mem_singleton.mp hf
    simp [either, argument, Interpretation.eval, Interpretation.evalList, Interpretation.operate,
      oneTrue, standard, Interpretation.truth, disjunction]
  · simp [argument, Interpretation.eval, oneTrue, standard]

end ExecutionCondition

end Bray.Guarantee
