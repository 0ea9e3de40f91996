/-
  File:      Bray/Match/Arms.lean
  Subject:   THE CHECK OF A MATCH (`coverage`, `guard_truth` and `check_match` of `pattern/coverage.rs`),
    and what its verdict of exhaustiveness means.

  The coverage of a pattern is no more than what it matches (`accepts_of_covers`): a pattern that the
  checker cannot describe contributes nothing. So the merged coverage of the arms is no more than what
  the arms match, and when it is exhaustive, every value of the subject is matched.
-/
import Bray.Match.Coverage

namespace Bray.Match

open List Coverage

open Bray.Guarantee (ConstantValueKind)

/-! ## 1. Coverage of a pattern -/

inductive Unreachability where
  | guardAlwaysFalse
  | coveredByEarlierPattern

/-- `report_unreachable`: the pattern, why it is unreachable and the patterns named as its cover. The
subject, and the patterns that are tried before it, are those of the place where it was reported. -/
structure Report where
  pattern : Pattern
  reason : Unreachability
  covering : Option (List PatternId)
  subject : Subject
  earlier : List Pattern

section Coverage

variable (env : Environment)

/-- `children_are_irrefutable` -/
def childrenAreIrrefutable (subject : Subject) (pattern : Pattern) : Bool :=
  (refutabilities env pattern.children (childSubjects env subject pattern).patterns).all
    fun child => child == .irrefutable

/-- `constant_coverage` -/
def constantCoverage (id : PatternId) : Option ConstantEvidence → Coverage
  | some (.value (.scalar _ .error)) => .unknown
  | some (.value constant) => .constant constant id
  | _ => .unknown

mutual
/-- `coverage`, with the alternatives it reports. -/
def coverage : Pattern → Subject → Coverage × List Report
  | .literal header value, subject =>
    match refutability env (.literal header value) subject with
    | .recovered => (.default, [])
    | .irrefutable => (.total header.id, [])
    | .refutable => (value.elim .unknown fun constant => .constant constant header.id, [])
  | .path header evidence, subject =>
    match refutability env (.path header evidence) subject with
    | .recovered => (.default, [])
    | .irrefutable => (.total header.id, [])
    | .refutable => (constantCoverage header.id evidence, [])
  | .nullableAbsent header, subject =>
    match refutability env (.nullableAbsent header) subject with
    | .recovered => (.default, [])
    | .irrefutable => (.total header.id, [])
    | .refutable => (.nullableAbsent header.id, [])
  | .nullablePresent header child, subject =>
    match refutability env (.nullablePresent header child) subject with
    | .recovered => (.default, [])
    | .irrefutable => (.total header.id, [])
    | .refutable =>
      let place := (childSubjects env subject (.nullablePresent header child)).first
      let contained := coverage child place.subject
      (.nullablePresent header.id (default.merge contained.1), contained.2)
  | .variant header target entries children, subject =>
    let pattern := Pattern.variant header target entries children
    match refutability env pattern subject with
    | .recovered => (.default, [])
    | .irrefutable => (.total header.id, [])
    | .refutable =>
      if childrenAreIrrefutable env subject pattern then
        (target.elim .default fun variant => .variant variant header.id, [])
      else (.default, [])
  | .alternative header children, subject =>
    match refutability env (.alternative header children) subject with
    | .recovered => (.default, [])
    | .irrefutable => (.total header.id, [])
    | .refutable => alternatives children subject [] .default
  | pattern, subject =>
    match refutability env pattern subject with
    | .recovered => (.default, [])
    | .irrefutable => (.total pattern.id, [])
    | .refutable => (.default, [])
termination_by structural pattern => pattern
/-- The loop over the alternatives: one that is covered by those before it is reported, the others are
merged. -/
def alternatives : List Pattern → Subject → List Pattern → Coverage → Coverage × List Report
  | [], _, _, merged => (merged, [])
  | child :: rest, subject, earlier, merged =>
    let alternative := coverage child subject
    match merged.coveringPatterns alternative.1 with
    | some covering =>
      let others := alternatives rest subject (earlier ++ [child]) merged
      (others.1, alternative.2 ++ ⟨child, .coveredByEarlierPattern, some covering, subject, earlier⟩ :: others.2)
    | none =>
      let others := alternatives rest subject (earlier ++ [child]) (merged.merge alternative.1)
      (others.1, alternative.2 ++ others.2)
termination_by structural patterns => patterns
end

end Coverage

/-! ## 2. The arms of a match -/

/-- A guard: absent, evaluated to a constant, a literal (with its value where its spelling is one of a
Boolean literal), or anything else. -/
inductive Guard where
  | absent
  | constant (kind : ConstantValueKind)
  | literal (value : Option Bool)
  | expression

inductive GuardTruth where
  | false
  | true
  | unknown
  deriving DecidableEq

/-- `guard_truth` -/
def Guard.truth : Guard → GuardTruth
  | .absent => .true
  | .constant (.boolean Bool.true) => .true
  | .constant (.boolean Bool.false) => .false
  | .constant _ => .unknown
  | .literal (some Bool.true) => .true
  | .literal (some Bool.false) => .false
  | .literal none => .unknown
  | .expression => .unknown

structure MatchArm where
  pattern : Pattern
  guard : Guard

/-- `MatchCoverageEntry`, with the reports. -/
structure MatchCoverage where
  unreachable : List Nat
  isExhaustive : Bool
  isRecovered : Bool
  reports : List Report

/-- What the loop of `check_match` keeps between two arms. The patterns of the arms so far that have no
guard, or one that is true, stand beside it. -/
structure ArmState where
  covered : Coverage
  unreachable : List Nat
  isRecovered : Bool
  reports : List Report
  earlier : List Pattern

section Check

variable (env : Environment)

def checkArm (subject : Subject) (index : Nat) (arm : MatchArm) (state : ArmState) : ArmState :=
  let armCoverage := coverage env arm.pattern subject
  let guard := arm.guard.truth
  let covering := state.covered.coveringPatterns armCoverage.1
  let isUnreachable := guard == .false || covering.isSome
  let report : Report :=
    ⟨arm.pattern, if guard == .false then .guardAlwaysFalse else .coveredByEarlierPattern, covering, subject,
      state.earlier⟩
  { covered := if guard == .true && !isUnreachable then state.covered.merge armCoverage.1 else state.covered
    unreachable := if isUnreachable then state.unreachable ++ [index] else state.unreachable
    isRecovered := state.isRecovered || refutability env arm.pattern subject == .recovered ||
      armCoverage.1.facts.isUnknown && guard != .false
    reports := state.reports ++ armCoverage.2 ++ if isUnreachable then [report] else []
    earlier := if guard == .true then state.earlier ++ [arm.pattern] else state.earlier }

def checkArms (subject : Subject) : Nat → List MatchArm → ArmState → ArmState
  | _, [], state => state
  | index, arm :: rest, state => checkArms subject (index + 1) rest (checkArm env subject index arm state)

/-- `check_match` looks through one borrow of the subject. -/
def subjectData : Ty → Ty
  | .borrow target => target
  | ty => ty

/-- **`check_match`** -/
def checkMatch (subject : Subject) (isRecovered : Bool) (arms : List MatchArm) : MatchCoverage :=
  let state := checkArms env subject 0 arms
    { covered := .default, unreachable := [], isRecovered := subject.isRecovered || isRecovered, reports := [],
      earlier := [] }
  { unreachable := state.unreachable
    isExhaustive := state.covered.isExhaustive env (subjectData subject.ty)
    isRecovered := state.isRecovered
    reports := state.reports }

end Check

/-! ## 3. A coverage is no more than what is matched -/

section Sound

variable {env : Environment} {holds : Nat → Value → Bool} {subject : Subject} {value : Value}

theorem Coverage.not_covers_default (value : Value) : ¬ default.Covers value :=
  Facts.not_covers_default value.unborrowed

theorem Coverage.not_covers_unknown (value : Value) : ¬ unknown.Covers value := by
  simp [unknown, Coverage.Covers, Facts.Covers, Facts.hasVariant]

variable {id : PatternId}

theorem Coverage.covers_constant {constant : Constant} :
    (Coverage.constant constant id).Covers value ↔ constant.equals value.unborrowed := by
  simp [Coverage.constant, Coverage.Covers, Facts.Covers, Facts.hasVariant]

theorem Coverage.covers_nullableAbsent :
    (nullableAbsent id).Covers value ↔ value.unborrowed = .absent := by
  simp [nullableAbsent, Coverage.Covers, Facts.Covers, Facts.hasVariant]

theorem Coverage.covers_variant {variant : VariantId} :
    (Coverage.variant variant id).Covers value ↔ value.unborrowed.mayBe variant := by
  simp [Coverage.variant, Coverage.Covers, Facts.Covers, Facts.hasVariant]

theorem Coverage.covers_nullablePresent {contained : Coverage} :
    (nullablePresent id contained).Covers value ↔
      ∃ part, value.unborrowed = .present part ∧ contained.Covers part := by
  simp [nullablePresent, Coverage.Covers, Facts.Covers, Facts.hasVariant]

variable {pattern : Pattern}

theorem checked_of_refutable (refutable : refutability env pattern subject = .refutable) :
    patternIsCompatible env subject pattern = true ∧
      (childSubjects env subject pattern).isRecovered = false ∧ isErrorConstant pattern = false ∧
      patternRefutability pattern (refutabilities env pattern.children (childSubjects env subject pattern).patterns)
        true (patternShapeIsTotal env subject pattern) false = .refutable := by
  rw [refutability_eq] at refutable
  obtain ⟨compatible, places, constant, -, same⟩ := assess_sound (by rw [refutable]; decide)
  exact ⟨compatible, places, constant, by rw [← same, refutable]⟩

theorem nullable_of_compatible (compatible : patternIsCompatible env subject pattern = true)
    (which : (∃ header, pattern = .nullableAbsent header) ∨ ∃ header child, pattern = .nullablePresent header child) :
    ∃ target, subject.matched.ty = .nullable target := by
  rcases which with ⟨header, rfl⟩ | ⟨header, child, rfl⟩ <;>
  · simp only [patternIsCompatible] at compatible
    split at compatible
    · next target shape => exact ⟨target, shape⟩
    · cases compatible

theorem accepts_nullablePresent {header : Header} {child : Pattern} {target : Ty}
    (shape : subject.matched.ty = .nullable target) :
    accepts env holds (.nullablePresent header child) subject value ↔
      ∃ part, value.unborrowed = .present part ∧ accepts env holds child (.of target subject.isRecovered) part := by
  simp only [accepts, childSubjects, shape, PatternChildren.first, head?_cons, Option.getD_some, Place.reach,
    passesTest]
  cases value.unborrowed <;> simp [Projection.select, Subject.matched]

theorem acceptsAny_iff (children : List Pattern) (subject : Subject) (value : Value) :
    acceptsAny env holds children (children.map fun _ => ⟨subject, none⟩) value ↔
      ∃ child ∈ children, accepts env holds child subject value := by
  induction children with
  | nil => simp [acceptsAny]
  | cons child rest ih =>
    simp only [acceptsAny, map_cons, head?_cons, Option.getD_some, Place.reach, Option.any_some,
      tail_cons, Bool.or_eq_true, ih, mem_cons, exists_eq_or_imp]

theorem accepts_alternative {header : Header} {children : List Pattern} :
    accepts env holds (.alternative header children) subject value ↔
      ∃ child ∈ children, accepts env holds child subject value :=
  acceptsAny_iff children subject value

/-- A refutable variant with irrefutable children is one of a tagged union, and matches every value of
the variant. -/
theorem accepts_variant {header : Header} {target : Option VariantId} {entries : List PatternEntry}
    {children : List Pattern} (refutable : refutability env (.variant header target entries children) subject = .refutable)
    (total : childrenAreIrrefutable env subject (.variant header target entries children))
    (typed : HasType env value subject.ty) {variant : VariantId} (selected : target = some variant) :
    accepts env holds (.variant header target entries children) subject value ↔ value.unborrowed.mayBe variant := by
  subst selected
  obtain ⟨checked, sound, -, assessed⟩ := checked_of_refutable refutable
  have compatible := checked
  simp only [patternIsCompatible, Bool.and_eq_true] at compatible
  simp only [childrenAreIrrefutable] at total
  cases shape : subject.matched.ty with
  | union definition substitution =>
    have typed := typed_matched typed shape (by simp)
    -- With a tagless union the pattern would be irrefutable or recovered.
    have tagged : env.isTaglessUnion definition = false := by
      by_contra untagged
      have untagged : env.isTaglessUnion definition = true := by simpa using untagged
      have shaped : patternShapeIsTotal env subject (.variant header (some variant) entries children) = true := by
        have excused := compatible.2
        simp only [shape, taglessUnion, untagged, Bool.true_and, Bool.not_eq_true', Bool.and_eq_false_iff,
          Bool.not_eq_false'] at excused
        unfold patternShapeIsTotal
        rw [checked, Bool.true_and]
        simpa only [shape, taglessUnion, untagged, Bool.and_true, Bool.or_eq_true] using excused
      simp only [patternRefutability, shaped, total, Bool.and_self, if_true] at assessed
      cases assessed
    have passed : passesTest env holds subject (.variant header (some variant) entries children) value.unborrowed ↔
      value.unborrowed.mayBe variant := by
      cases found : value.unborrowed with
      | tagless fields values =>
        rw [found] at typed
        cases typed with
        | tagless untagged =>
          rw [tagged] at untagged
          cases untagged
      | _ => simp [passesTest, shape, tagged, Value.mayBe]
    rw [shape] at compatible
    rw [accepts_eq (by simp), Bool.and_eq_true, passed]
    refine ⟨fun both => both.1, fun active => ⟨active, ?_⟩⟩
    refine childrenMatch _ _ _ ?_ (reached_variant shape compatible.1 typed (passed.mpr active) sound)
    simpa using total
  | _ => simp [variantShapeIsCompatible, shape] at compatible

/-- A pattern that the checker cannot describe covers nothing unless it is irrefutable. -/
theorem accepts_of_plain (plain : coverage env pattern subject = match refutability env pattern subject with
  | .recovered => (.default, []) | .irrefutable => (.total pattern.id, [])
  | .refutable => (.default, []))
  (typed : HasType env value subject.ty) (covered : (coverage env pattern subject).1.Covers value) :
  accepts env holds pattern subject value := by
  rw [plain] at covered
  split at covered
  · exact absurd covered (Coverage.not_covers_default value)
  · next total => exact accepts_of_irrefutable _ _ _ total typed
  · exact absurd covered (Coverage.not_covers_default value)

mutual
/-- **What the coverage of a pattern stands for, the pattern matches.** -/
theorem accepts_of_covers : ∀ (pattern : Pattern) (subject : Subject) (value : Value),
    HasType env value subject.ty → (coverage env pattern subject).1.Covers value →
      accepts env holds pattern subject value
  | .literal header constant, subject, value, typed, covered => by
    simp only [coverage] at covered
    split at covered
    · exact absurd covered (Coverage.not_covers_default value)
    · next total => exact accepts_of_irrefutable _ _ _ total typed
    · cases constant with
      | none => exact absurd covered (Coverage.not_covers_unknown value)
      | some constant => exact Coverage.covers_constant.mp covered
  | .path header evidence, subject, value, typed, covered => by
    simp only [coverage] at covered
    split at covered
    · exact absurd covered (Coverage.not_covers_default value)
    · next total => exact accepts_of_irrefutable _ _ _ total typed
    · unfold constantCoverage at covered
      split at covered
      · exact absurd covered (Coverage.not_covers_unknown value)
      · exact Coverage.covers_constant.mp covered
      · exact absurd covered (Coverage.not_covers_unknown value)
  | .nullableAbsent header, subject, value, typed, covered => by
    simp only [coverage] at covered
    split at covered
    · exact absurd covered (Coverage.not_covers_default value)
    · next total => exact accepts_of_irrefutable _ _ _ total typed
    · next refutable =>
      obtain ⟨target, shape⟩ := nullable_of_compatible (checked_of_refutable refutable).1 (.inl ⟨header, rfl⟩)
      simp only [accepts, Coverage.covers_nullableAbsent.mp covered, passesTest, shape]
  | .nullablePresent header child, subject, value, typed, covered => by
    simp only [coverage] at covered
    split at covered
    · exact absurd covered (Coverage.not_covers_default value)
    · next total => exact accepts_of_irrefutable _ _ _ total typed
    · next refutable =>
      obtain ⟨target, shape⟩ :=
        nullable_of_compatible (checked_of_refutable refutable).1 (.inr ⟨header, child, rfl⟩)
      obtain ⟨part, found, covered⟩ := Coverage.covers_nullablePresent.mp covered
      have covered := ((covers_merge _ _ _).mp covered).resolve_left (Coverage.not_covers_default part)
      have inner := typed_matched typed shape (by simp)
      rw [found] at inner
      simp only [childSubjects, shape, PatternChildren.first, head?_cons, Option.getD_some] at covered
      cases inner with
      | present inner => exact (accepts_nullablePresent shape).mpr ⟨part, found, accepts_of_covers child _ _ inner covered⟩
  | .variant header target entries children, subject, value, typed, covered => by
    simp only [coverage] at covered
    split at covered
    · exact absurd covered (Coverage.not_covers_default value)
    · next total => exact accepts_of_irrefutable _ _ _ total typed
    · next refutable =>
      split at covered
      · next total =>
        cases target with
        | none => exact absurd covered (Coverage.not_covers_default value)
        | some variant => exact (accepts_variant refutable total typed rfl).mpr (Coverage.covers_variant.mp covered)
      · exact absurd covered (Coverage.not_covers_default value)
  | .alternative header children, subject, value, typed, covered => by
    simp only [coverage] at covered
    split at covered
    · exact absurd covered (Coverage.not_covers_default value)
    · next total => exact accepts_of_irrefutable _ _ _ total typed
    · have found := accepts_of_alternatives children subject [] .default value typed covered
      exact accepts_alternative.mpr (found.resolve_left (Coverage.not_covers_default value))
  | .binding header, _, _, typed, covered => accepts_of_plain rfl typed covered
  | .discard header, _, _, typed, covered => accepts_of_plain rfl typed covered
  | .remaining header, _, _, typed, covered => accepts_of_plain rfl typed covered
  | .error header, _, _, typed, covered => accepts_of_plain rfl typed covered
  | .box header child, _, _, typed, covered => accepts_of_plain rfl typed covered
  | .grouped header child, _, _, typed, covered => accepts_of_plain rfl typed covered
  | .product header entries children, _, _, typed, covered => accepts_of_plain rfl typed covered
  | .array header entries children, _, _, typed, covered => accepts_of_plain rfl typed covered
  | .tuple header children, _, _, typed, covered => accepts_of_plain rfl typed covered
/-- The merged coverage of alternatives stands for values that one of them matches. -/
theorem accepts_of_alternatives : ∀ (children : List Pattern) (subject : Subject) (earlier : List Pattern)
    (merged : Coverage) (value : Value), HasType env value subject.ty →
      (alternatives env children subject earlier merged).1.Covers value →
      merged.Covers value ∨ ∃ child ∈ children, accepts env holds child subject value
  | [], _, _, _, _, _, covered => Or.inl covered
  | child :: rest, subject, earlier, merged, value, typed, covered => by
    simp only [alternatives] at covered
    split at covered
    · rcases accepts_of_alternatives rest subject _ _ value typed covered with before | ⟨found, listed, accepted⟩
      · exact Or.inl before
      · exact Or.inr ⟨found, mem_cons_of_mem _ listed, accepted⟩
    · rcases accepts_of_alternatives rest subject _ _ value typed covered with before | ⟨found, listed, accepted⟩
      · rcases (covers_merge _ _ _).mp before with before | now
        · exact Or.inl before
        · exact Or.inr ⟨child, mem_cons_self, accepts_of_covers child subject value typed now⟩
      · exact Or.inr ⟨found, mem_cons_of_mem _ listed, accepted⟩
end

end Sound

/-! ## 4. An exhaustive match -/

section Exhaustive

variable {env : Environment} {holds : Nat → Value → Bool} {subject : Subject}

/-- The invariant of the loop: what is covered so far, an earlier arm matches. -/
def ArmState.Sound (env : Environment) (holds : Nat → Value → Bool) (subject : Subject) (state : ArmState) : Prop :=
  ∀ value, HasType env value subject.ty → state.covered.Covers value →
    ∃ pattern ∈ state.earlier, accepts env holds pattern subject value

theorem checkArm_sound {index : Nat} {arm : MatchArm} {state : ArmState}
    (sound : state.Sound env holds subject) : (checkArm env subject index arm state).Sound env holds subject := by
  intro value typed covered
  simp only [checkArm] at covered ⊢
  have kept : ∀ pattern ∈ state.earlier,
    pattern ∈ if arm.guard.truth == .true then state.earlier ++ [arm.pattern] else state.earlier := by
    intro pattern listed
    split
    · exact mem_append_left _ listed
    · exact listed
  have before : state.covered.Covers value → ∃ pattern ∈
    if arm.guard.truth == .true then state.earlier ++ [arm.pattern] else state.earlier,
      accepts env holds pattern subject value := by
    intro covered
    obtain ⟨pattern, listed, accepted⟩ := sound value typed covered
    exact ⟨pattern, kept pattern listed, accepted⟩
  split at covered
  · next merged =>
    rcases (covers_merge _ _ _).mp covered with covered | now
    · exact before covered
    · refine ⟨arm.pattern, ?_, accepts_of_covers _ _ _ typed now⟩
      rw [(Bool.and_eq_true_iff.mp merged).1, if_pos rfl]
      exact mem_append_right _ (.head _)
  · exact before covered

theorem checkArms_sound : ∀ {arms : List MatchArm} {index : Nat} {state : ArmState},
    state.Sound env holds subject → (checkArms env subject index arms state).Sound env holds subject := by
  intro arms
  induction arms with
  | nil =>
    intro index state sound
    exact sound
  | cons arm rest ih =>
    intro index state sound
    exact ih (checkArm_sound sound)

/-- The earlier patterns are those of arms whose guard is absent or true. -/
theorem checkArms_earlier {pattern : Pattern} : ∀ {arms : List MatchArm} {index : Nat} {state : ArmState},
    pattern ∈ (checkArms env subject index arms state).earlier →
      pattern ∈ state.earlier ∨ ∃ arm ∈ arms, arm.guard.truth = .true ∧ arm.pattern = pattern := by
  intro arms
  induction arms with
  | nil =>
    intro index state listed
    exact .inl listed
  | cons arm rest ih =>
    intro index state listed
    rcases ih listed with now | ⟨found, member, true_guard, same⟩
    · simp only [checkArm] at now
      split at now
      · next true_guard =>
        rcases mem_append.mp now with before | now
        · exact .inl before
        · exact .inr ⟨arm, (.head _), beq_iff_eq.mp true_guard, (mem_singleton.mp now).symm⟩
      · exact .inl now
    · exact .inr ⟨found, .tail _ member, true_guard, same⟩

/-- A coverage of the type behind the borrow of the subject covers the subject. -/
theorem covers_subject {coverage : Coverage} {value : Value} {ty : Ty}
    (exhaustive : coverage.isExhaustive env (subjectData ty)) (typed : HasType env value ty) : coverage.Covers value := by
  cases ty with
  | borrow target =>
    cases typed with
    | borrowed inner =>
      have covered := covers_of_isExhaustive coverage _ _ exhaustive inner
      cases coverage <;> exact covered
  | _ => exact covers_of_isExhaustive coverage _ _ exhaustive typed

/-- **An exhaustive match is total.** Every value of the type of the subject is matched by the pattern of
an arm that has no guard or whose guard is the constant true. -/
theorem exhaustive_match_is_total (env : Environment) (holds : Nat → Value → Bool) (subject : Subject)
    (isRecovered : Bool) (arms : List MatchArm)
    (exhaustive : (checkMatch env subject isRecovered arms).isExhaustive = true) (value : Value)
    (typed : HasType env value subject.ty) :
    ∃ arm ∈ arms, arm.guard.truth = .true ∧ accepts env holds arm.pattern subject value := by
  have covered := covers_subject exhaustive typed
  obtain ⟨pattern, listed, accepted⟩ := @checkArms_sound env holds subject _ _ _
    (fun value _ covered => absurd covered (Coverage.not_covers_default value)) value typed covered
  rcases checkArms_earlier listed with none | ⟨arm, member, true_guard, rfl⟩
  · cases none
  · exact ⟨arm, member, true_guard, accepted⟩

end Exhaustive

/-! ## 5. Nullable truth -/

/-- An environment with the Boolean struct `0`, and the union `0` of the variants `0` without a payload and
`1` with one Boolean field. -/
def sampleEnvironment : Environment where
  boolean := some 0
  fields := fun _ => []
  hasFlexibleTrailingMember := fun _ => false
  variants := fun _ => [0, 1]
  unionOf := fun _ => 0
  payloadFields := fun variant => if variant = 1 then [⟨0, 0, true⟩] else []
  isTaglessUnion := fun _ => false
  fieldType := fun _ _ => some (.struct 0 0)
  boolean_fields := fun _ _ => rfl

/-- `match value { none => .., ?true => .., ?false => .. }` on a nullable Boolean. -/
def nullableArms : List MatchArm :=
  [⟨.nullableAbsent ⟨0, false⟩, .absent⟩,
    ⟨.nullablePresent ⟨1, false⟩ (.literal ⟨2, false⟩ (some (.scalar 0 (.boolean true)))), .absent⟩,
    ⟨.nullablePresent ⟨3, false⟩ (.literal ⟨4, false⟩ (some (.scalar 0 (.boolean false)))), .literal (some true)⟩]

/-- The arms are exhaustive, so the present false value is matched. -/
theorem nullable_arms_match :
    (checkMatch sampleEnvironment ⟨.nullable (.struct 0 0), false, false⟩ false nullableArms).isExhaustive = true ∧
      ∃ arm ∈ nullableArms, arm.guard.truth = .true ∧
        accepts sampleEnvironment (fun _ _ => false) arm.pattern ⟨.nullable (.struct 0 0), false, false⟩
          (.present (.scalar (.boolean false))) :=
  have exhaustive : (checkMatch sampleEnvironment ⟨.nullable (.struct 0 0), false, false⟩ false
    nullableArms).isExhaustive = true := by decide +kernel
  ⟨exhaustive, exhaustive_match_is_total _ _ _ _ _ exhaustive _ (.present (.boolean false rfl))⟩

end Bray.Match
