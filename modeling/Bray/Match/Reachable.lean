/-
  File:      Bray/Match/Reachable.lean
  Subject:   UNREACHABLE ARMS: what a report of `check_match` means, and when it is right.

  A report that a pattern is covered compares coverages. The coverage of a pattern that the checker
  cannot describe is empty, and merging it with the coverage of another alternative hides it: the merged
  coverage stands for less than what the alternatives match together. The values that get lost in this
  way are those of `missed`. A reported pattern is unreachable exactly when earlier patterns match
  whatever it matches among them.
-/
import Bray.Match.Arms

namespace Bray.Match

open List Coverage

open Bray.Guarantee (ConstantValueKind)

/-! ## 1. What a coverage loses -/

section Missed

variable (env : Environment) (holds : Nat → Value → Bool)

mutual
/-- The value is matched by an alternative of the pattern that has no coverage: one that is recovered, or
refutable and neither a constant, a nullable, nor a whole variant. -/
def missed : Pattern → Subject → Value → Bool
  | .literal header constant, subject, value =>
    refutability env (.literal header constant) subject == .recovered &&
      accepts env holds (.literal header constant) subject value
  | .path header evidence, subject, value =>
    refutability env (.path header evidence) subject == .recovered &&
      accepts env holds (.path header evidence) subject value
  | .nullableAbsent header, subject, value =>
    refutability env (.nullableAbsent header) subject == .recovered &&
      accepts env holds (.nullableAbsent header) subject value
  | .nullablePresent header child, subject, value =>
    match refutability env (.nullablePresent header child) subject with
    | .irrefutable => false
    | .recovered => accepts env holds (.nullablePresent header child) subject value
    | .refutable =>
      let place := (childSubjects env subject (.nullablePresent header child)).first
      match value.unborrowed with
      | .present part => missed child place.subject part
      | _ => false
  | .variant header target entries children, subject, value =>
    let pattern := Pattern.variant header target entries children
    match refutability env pattern subject with
    | .irrefutable => false
    | .recovered => accepts env holds pattern subject value
    | .refutable => !childrenAreIrrefutable env subject pattern && accepts env holds pattern subject value
  | .alternative header children, subject, value =>
    match refutability env (.alternative header children) subject with
    | .irrefutable => false
    | .recovered => accepts env holds (.alternative header children) subject value
    | .refutable => missedAny children subject value
  | pattern, subject, value =>
    refutability env pattern subject != .irrefutable && accepts env holds pattern subject value
termination_by structural pattern => pattern
def missedAny : List Pattern → Subject → Value → Bool
  | [], _, _ => false
  | child :: rest, subject, value => missed child subject value || missedAny rest subject value
termination_by structural patterns => patterns
end

end Missed

section Complete

variable {env : Environment} {holds : Nat → Value → Bool}

/-- What is missed of a pattern that the checker cannot describe, the pattern matches. -/
theorem accepts_of_missed_plain {pattern : Pattern} {subject : Subject} {value : Value}
    (plain : missed env holds pattern subject value =
      (refutability env pattern subject != .irrefutable && accepts env holds pattern subject value))
    (lost : missed env holds pattern subject value) : accepts env holds pattern subject value := by
  rw [plain, Bool.and_eq_true] at lost
  exact lost.2

mutual
theorem accepts_of_missed : ∀ (pattern : Pattern) (subject : Subject) (value : Value),
    missed env holds pattern subject value → accepts env holds pattern subject value
  | .literal .., _, _, lost => (Bool.and_eq_true_iff.mp lost).2
  | .path .., _, _, lost => (Bool.and_eq_true_iff.mp lost).2
  | .nullableAbsent .., _, _, lost => (Bool.and_eq_true_iff.mp lost).2
  | .nullablePresent header child, subject, value, lost => by
    simp only [missed] at lost
    split at lost
    · cases lost
    · exact lost
    · next refutable =>
      split at lost
      · next part found =>
        obtain ⟨target, shape⟩ :=
          nullable_of_compatible (checked_of_refutable refutable).1 (.inr ⟨header, child, rfl⟩)
        simp only [childSubjects, shape, PatternChildren.first, head?_cons, Option.getD_some] at lost
        exact (accepts_nullablePresent shape).mpr ⟨part, found, accepts_of_missed child _ _ lost⟩
      · cases lost
  | .variant .., _, _, lost => by
    simp only [missed] at lost
    split at lost
    · cases lost
    · exact lost
    · exact (Bool.and_eq_true_iff.mp lost).2
  | .alternative header children, subject, value, lost => by
    simp only [missed] at lost
    split at lost
    · cases lost
    · exact lost
    · exact accepts_alternative.mpr (accepts_of_missedAny children subject value lost)
  | .binding _, _, _, lost => accepts_of_missed_plain rfl lost
  | .discard _, _, _, lost => accepts_of_missed_plain rfl lost
  | .remaining _, _, _, lost => accepts_of_missed_plain rfl lost
  | .error _, _, _, lost => accepts_of_missed_plain rfl lost
  | .box .., _, _, lost => accepts_of_missed_plain rfl lost
  | .grouped .., _, _, lost => accepts_of_missed_plain rfl lost
  | .product .., _, _, lost => accepts_of_missed_plain rfl lost
  | .array .., _, _, lost => accepts_of_missed_plain rfl lost
  | .tuple .., _, _, lost => accepts_of_missed_plain rfl lost
theorem accepts_of_missedAny : ∀ (children : List Pattern) (subject : Subject) (value : Value),
    missedAny env holds children subject value → ∃ child ∈ children, accepts env holds child subject value
  | [], _, _, lost => nomatch lost
  | child :: rest, subject, value, lost => by
    rcases Bool.or_eq_true_iff.mp lost with now | later
    · exact ⟨child, mem_cons_self, accepts_of_missed child subject value now⟩
    · obtain ⟨found, listed, accepted⟩ := accepts_of_missedAny rest subject value later
      exact ⟨found, .tail _ listed, accepted⟩
end

/-- The value is accounted for: covered, lost, or one about which the coverage knows nothing. -/
def Accounted (env : Environment) (holds : Nat → Value → Bool) (pattern : Pattern) (subject : Subject) (value : Value) :
  Prop :=
  (coverage env pattern subject).1.Covers value ∨ missed env holds pattern subject value ∨
    (coverage env pattern subject).1.Unclear value

theorem accounted_of_plain {pattern : Pattern} {subject : Subject} {value : Value}
    (plain : coverage env pattern subject = match refutability env pattern subject with
      | .recovered => (.default, []) | .irrefutable => (.total pattern.id, [])
      | .refutable => (.default, [])) (lossy : missed env holds pattern subject value =
      (refutability env pattern subject != .irrefutable && accepts env holds pattern subject value))
    (accepted : accepts env holds pattern subject value) : Accounted env holds pattern subject value := by
  unfold Accounted
  rw [plain, lossy, accepted]
  cases refutability env pattern subject with
  | irrefutable => exact .inl (.inl rfl)
  | refutable => exact .inr (.inl rfl)
  | recovered => exact .inr (.inl rfl)

theorem Coverage.contains_of_coveringPatterns {coverage other : Coverage} {covering : List PatternId}
    (found : coverage.coveringPatterns other = some covering) : coverage.contains other := by
  unfold coveringPatterns at found
  split at found
  · next contained => exact contained
  · cases found

mutual
/-- **A value that a pattern matches is accounted for.** -/
theorem accounted : ∀ (pattern : Pattern) (subject : Subject) (value : Value), HasType env value subject.ty →
    accepts env holds pattern subject value → Accounted env holds pattern subject value
  | .literal header constant, subject, value, _, accepted => by
    cases refuted : refutability env (.literal header constant) subject with
    | irrefutable => exact Or.inl (by simp only [coverage, refuted]; exact Or.inl rfl)
    | recovered => exact Or.inr (Or.inl (by simp only [missed, refuted, accepted]; rfl))
    | refutable =>
      unfold Accounted
      simp only [coverage, refuted]
      cases constant with
      | none => exact Or.inr (Or.inr rfl)
      | some constant => exact Or.inl (covers_constant.mpr accepted)
  | .path header evidence, subject, value, _, accepted => by
    cases refuted : refutability env (.path header evidence) subject with
    | irrefutable => exact Or.inl (by simp only [coverage, refuted]; exact Or.inl rfl)
    | recovered => exact Or.inr (Or.inl (by simp only [missed, refuted, accepted]; rfl))
    | refutable =>
      unfold Accounted
      simp only [coverage, refuted]
      unfold constantCoverage
      split
      · exact Or.inr (Or.inr rfl)
      · exact Or.inl (covers_constant.mpr accepted)
      · exact Or.inr (Or.inr rfl)
  | .nullableAbsent header, subject, value, _, accepted => by
    cases refuted : refutability env (.nullableAbsent header) subject with
    | irrefutable => exact Or.inl (by simp only [coverage, refuted]; exact Or.inl rfl)
    | recovered => exact Or.inr (Or.inl (by simp only [missed, refuted, accepted]; rfl))
    | refutable =>
      obtain ⟨target, shape⟩ := nullable_of_compatible (checked_of_refutable refuted).1 (.inl ⟨header, rfl⟩)
      refine .inl ?_
      simp only [coverage, refuted, covers_nullableAbsent]
      simp only [accepts, passesTest, shape] at accepted
      cases found : value.unborrowed with
      | absent => rfl
      | _ =>
        rw [found] at accepted
        cases accepted
  | .nullablePresent header child, subject, value, typed, accepted => by
    cases refuted : refutability env (.nullablePresent header child) subject with
    | irrefutable => exact .inl (by simp only [coverage, refuted]; exact .inl rfl)
    | recovered => exact .inr (.inl (by simp only [missed, refuted, accepted]))
    | refutable =>
      obtain ⟨target, shape⟩ := nullable_of_compatible (checked_of_refutable refuted).1 (.inr ⟨header, child, rfl⟩)
      obtain ⟨part, found, accepted⟩ := (accepts_nullablePresent shape).mp accepted
      have inner := typed_matched typed shape (by simp)
      rw [found] at inner
      cases inner with
      | present inner =>
        unfold Accounted
        simp only [coverage, missed, refuted, childSubjects, shape, PatternChildren.first, head?_cons,
          Option.getD_some, found, covers_nullablePresent, Value.present.injEq, exists_eq_left']
        rcases accounted child _ part inner accepted with covered | lost | unclear
        · exact .inl ((covers_merge _ _ _).mpr (.inr covered))
        · exact .inr (.inl lost)
        · exact .inr (.inr (.inr ⟨part, found, (unclear_merge _ _ _).mpr (.inr unclear)⟩))
  | .variant header target entries children, subject, value, typed, accepted => by
    cases refuted : refutability env (.variant header target entries children) subject with
    | irrefutable => exact .inl (by simp only [coverage, refuted]; exact .inl rfl)
    | recovered => exact .inr (.inl (by simp only [missed, refuted, accepted]))
    | refutable =>
      cases total : childrenAreIrrefutable env subject (.variant header target entries children) with
      | false => exact .inr (.inl (by simp only [missed, refuted, total, accepted]; rfl))
      | true =>
        cases target with
        | none =>
          have compatible := (checked_of_refutable refuted).1
          cases shape : subject.matched.ty <;>
            simp [patternIsCompatible, variantShapeIsCompatible, shape] at compatible
        | some variant =>
          refine .inl ?_
          simp only [coverage, refuted, total, if_true, Option.elim_some, covers_variant]
          exact (accepts_variant refuted total typed rfl).mp accepted
  | .alternative header children, subject, value, typed, accepted => by
    cases refuted : refutability env (.alternative header children) subject with
    | irrefutable => exact .inl (by simp only [coverage, refuted]; exact .inl rfl)
    | recovered => exact .inr (.inl (by simp only [missed, refuted, accepted]))
    | refutable =>
      unfold Accounted
      simp only [coverage, missed, refuted]
      exact accounted_alternatives children subject [] .default value typed (.inl (accepts_alternative.mp accepted))
  | .binding _, _, _, _, accepted => accounted_of_plain rfl rfl accepted
  | .discard _, _, _, _, accepted => accounted_of_plain rfl rfl accepted
  | .remaining _, _, _, _, accepted => accounted_of_plain rfl rfl accepted
  | .error _, _, _, _, accepted => accounted_of_plain rfl rfl accepted
  | .box .., _, _, _, accepted => accounted_of_plain rfl rfl accepted
  | .grouped .., _, _, _, accepted => accounted_of_plain rfl rfl accepted
  | .product .., _, _, _, accepted => accounted_of_plain rfl rfl accepted
  | .array .., _, _, _, accepted => accounted_of_plain rfl rfl accepted
  | .tuple .., _, _, _, accepted => accounted_of_plain rfl rfl accepted
theorem accounted_alternatives : ∀ (children : List Pattern) (subject : Subject) (earlier : List Pattern)
    (merged : Coverage) (value : Value), HasType env value subject.ty →
      (∃ child ∈ children, accepts env holds child subject value) ∨ merged.Covers value ∨ merged.Unclear value →
      (alternatives env children subject earlier merged).1.Covers value ∨
        missedAny env holds children subject value ∨
        (alternatives env children subject earlier merged).1.Unclear value
  | [], _, _, _, _, _, given => by
    rcases given with ⟨_, listed, _⟩ | covered | unclear
    · cases listed
    · exact Or.inl covered
    · exact Or.inr (Or.inr unclear)
  | child :: rest, subject, earlier, merged, value, typed, given => by
    -- The value is one of the rest, is lost here, or goes into the coverage that the loop goes on with.
    have go : ∀ next, ((∃ found ∈ rest, accepts env holds found subject value) ∨ next.Covers value ∨ next.Unclear value) →
      (alternatives env rest subject (earlier ++ [child]) next).1.Covers value ∨
        missedAny env holds (child :: rest) subject value ∨
        (alternatives env rest subject (earlier ++ [child]) next).1.Unclear value := by
      intro next known
      rcases accounted_alternatives rest subject (earlier ++ [child]) next value typed known with
        covered | lost | unclear
      · exact .inl covered
      · exact .inr (.inl (Bool.or_eq_true_iff.mpr (.inr lost)))
      · exact .inr (.inr unclear)
    simp only [alternatives]
    split
    · next covering within =>
      have contained := Coverage.contains_of_coveringPatterns within
      rcases given with ⟨found, listed, accepted⟩ | before
      · rcases mem_cons.mp listed with same | listed
        · rw [same] at accepted
          rcases accounted child subject value typed accepted with covered | lost | unclear
          · exact go merged (.inr (.inl (covers_of_contains _ _ _ contained covered)))
          · exact .inr (.inl (Bool.or_eq_true_iff.mpr (.inl lost)))
          · exact go merged (.inr (.inl (covers_of_unclear _ _ _ contained unclear)))
        · exact go merged (.inl ⟨found, listed, accepted⟩)
      · exact go merged (.inr before)
    · rcases given with ⟨found, listed, accepted⟩ | covered | unclear
      · rcases mem_cons.mp listed with same | listed
        · rw [same] at accepted
          rcases accounted child subject value typed accepted with covered | lost | unclear
          · exact go _ (.inr (.inl ((covers_merge _ _ _).mpr (.inr covered))))
          · exact .inr (.inl (Bool.or_eq_true_iff.mpr (.inl lost)))
          · exact go _ (.inr (.inr ((unclear_merge _ _ _).mpr (.inr unclear))))
        · exact go _ (.inl ⟨found, listed, accepted⟩)
      · exact go _ (.inr (.inl ((covers_merge _ _ _).mpr (.inl covered))))
      · exact go _ (.inr (.inr ((unclear_merge _ _ _).mpr (.inl unclear))))
end

end Complete

/-! ## 2. Reports -/

section Reports

variable (env : Environment) (holds : Nat → Value → Bool)

/-- A report is sound: the arm is never selected, because its guard is false, or because whatever its
pattern matches an earlier pattern matches. -/
def Report.Sound (report : Report) : Prop :=
  report.reason = .coveredByEarlierPattern → ∀ value, HasType env value report.subject.ty →
    accepts env holds report.pattern report.subject value →
    ∃ pattern ∈ report.earlier, accepts env holds pattern report.subject value

/-- What the alternatives without a coverage of a reported pattern match, an earlier pattern matches. -/
def Report.LosesNothing (report : Report) : Prop :=
  report.reason = .coveredByEarlierPattern → ∀ value, HasType env value report.subject.ty →
    missed env holds report.pattern report.subject value →
    ∃ pattern ∈ report.earlier, accepts env holds pattern report.subject value

/-- Why a pattern was reported: its coverage is contained in one that earlier patterns match. -/
def Report.Justified (report : Report) : Prop :=
  report.reason = .coveredByEarlierPattern → ∃ covered : Coverage,
    (∀ value, HasType env value report.subject.ty → covered.Covers value →
      ∃ pattern ∈ report.earlier, accepts env holds pattern report.subject value) ∧
    covered.contains (coverage env report.pattern report.subject).1

variable {env holds}

theorem Report.Justified.sound_iff {report : Report} (justified : report.Justified env holds) :
    report.Sound env holds ↔ report.LosesNothing env holds := by
  constructor
  · intro sound reason value typed lost
    exact sound reason value typed (accepts_of_missed _ _ _ lost)
  · intro complete reason value typed accepted
    obtain ⟨covered, matched, contained⟩ := justified reason
    rcases accounted report.pattern report.subject value typed accepted with inside | lost | unclear
    · exact matched value typed (covers_of_contains _ _ _ contained inside)
    · exact complete reason value typed lost
    · exact matched value typed (covers_of_unclear _ _ _ contained unclear)

mutual
/-- The alternatives that `coverage` reports are justified. -/
theorem coverage_justified : ∀ (pattern : Pattern) (subject : Subject),
    ∀ report ∈ (coverage env pattern subject).2, report.Justified env holds
  | .nullablePresent header child, subject => by
    intro report listed
    simp only [coverage] at listed
    split at listed
    · cases listed
    · cases listed
    · exact coverage_justified child _ report listed
  | .alternative header children, subject => by
    intro report listed
    simp only [coverage] at listed
    split at listed
    · cases listed
    · cases listed
    · exact alternatives_justified children subject [] .default
        (fun value _ covered => absurd covered (not_covers_default value)) report listed
  | .literal .., _ => by
    intro report listed
    simp only [coverage] at listed
    split at listed <;> cases listed
  | .path .., _ => by
    intro report listed
    simp only [coverage] at listed
    split at listed <;> cases listed
  | .nullableAbsent .., _ => by
    intro report listed
    simp only [coverage] at listed
    split at listed <;> cases listed
  | .variant .., _ => by
    intro report listed
    simp only [coverage] at listed
    split at listed
    · cases listed
    · cases listed
    · split at listed <;> cases listed
  | .binding .., _ | .discard .., _ | .remaining .., _ | .error .., _ | .box .., _ | .grouped .., _
  | .product .., _ | .array .., _ | .tuple .., _ => by
    intro report listed
    simp only [coverage] at listed
    split at listed <;> cases listed
theorem alternatives_justified : ∀ (children : List Pattern) (subject : Subject) (earlier : List Pattern)
    (merged : Coverage), (∀ value, HasType env value subject.ty → merged.Covers value →
      ∃ pattern ∈ earlier, accepts env holds pattern subject value) →
    ∀ report ∈ (alternatives env children subject earlier merged).2, report.Justified env holds
  | [], _, _, _, _ => by
    intro report listed
    cases listed
  | child :: rest, subject, earlier, merged, matched => by
    have longer : ∀ value, HasType env value subject.ty → merged.Covers value →
      ∃ pattern ∈ earlier ++ [child], accepts env holds pattern subject value := by
      intro value typed covered
      obtain ⟨pattern, listed, accepted⟩ := matched value typed covered
      exact ⟨pattern, mem_append_left _ listed, accepted⟩
    intro report listed
    simp only [alternatives] at listed
    split at listed
    · next covering found =>
      rcases mem_append.mp listed with inner | outer
      · exact coverage_justified child subject report inner
      rcases mem_cons.mp outer with rfl | later
      · exact fun _ => ⟨merged, matched, Coverage.contains_of_coveringPatterns found⟩
      · exact alternatives_justified rest subject _ merged longer report later
    · rcases mem_append.mp listed with inner | later
      · exact coverage_justified child subject report inner
      · refine alternatives_justified rest subject _ _ ?_ report later
        intro value typed covered
        rcases (covers_merge _ _ _).mp covered with before | now
        · exact longer value typed before
        · exact ⟨child, mem_append_right _ (.head _), accepts_of_covers _ _ _ typed now⟩
end

theorem checkArm_justified {subject : Subject} {index : Nat} {arm : MatchArm} {state : ArmState}
    (sound : state.Sound env holds subject) (justified : ∀ report ∈ state.reports, report.Justified env holds) :
    ∀ report ∈ (checkArm env subject index arm state).reports, report.Justified env holds := by
  intro report listed
  rcases mem_append.mp listed with listed | own
  · rcases mem_append.mp listed with before | inner
    · exact justified report before
    · exact coverage_justified _ _ report inner
  · split at own
    · next unreachable =>
      rw [mem_singleton] at own
      subst own
      intro reason
      have guarded : (arm.guard.truth == GuardTruth.false) = false := by
        cases guard : arm.guard.truth <;> simp_all
      rw [guarded, Bool.false_or] at unreachable
      obtain ⟨covering, found⟩ := Option.isSome_iff_exists.mp unreachable
      exact ⟨state.covered, sound, Coverage.contains_of_coveringPatterns found⟩
    · cases own

theorem checkArms_justified {subject : Subject} : ∀ {arms : List MatchArm} {index : Nat} {state : ArmState},
    state.Sound env holds subject → (∀ report ∈ state.reports, report.Justified env holds) →
    ∀ report ∈ (checkArms env subject index arms state).reports, report.Justified env holds := by
  intro arms
  induction arms with
  | nil =>
    intro index state _ justified
    exact justified
  | cons arm rest ih =>
    intro index state sound justified
    exact ih (checkArm_sound sound) (checkArm_justified sound justified)

theorem checkMatch_justified (env : Environment) (holds : Nat → Value → Bool) (subject : Subject) (isRecovered : Bool)
    (arms : List MatchArm) :
    ∀ report ∈ (checkMatch env subject isRecovered arms).reports, report.Justified env holds := by
  refine checkArms_justified (fun value _ covered => absurd covered (not_covers_default value)) ?_
  intro report listed
  cases listed

/-- **When the reports of a match are right.** Every arm and every alternative that is reported as covered
matches nothing but what earlier patterns match, if and only if that holds of what its alternatives
without a coverage match. -/
theorem reports_sound_iff (env : Environment) (holds : Nat → Value → Bool) (subject : Subject) (isRecovered : Bool)
    (arms : List MatchArm) :
    (∀ report ∈ (checkMatch env subject isRecovered arms).reports, report.Sound env holds) ↔
      ∀ report ∈ (checkMatch env subject isRecovered arms).reports, report.LosesNothing env holds := by
  constructor
  · intro sound report listed
    exact (checkMatch_justified env holds subject isRecovered arms report listed).sound_iff.mp (sound report listed)
  · intro complete report listed
    exact (checkMatch_justified env holds subject isRecovered arms report listed).sound_iff.mpr (complete report listed)

end Reports

/-! ## 3. A hidden alternative -/

/-- `match value { .first => .., .first | .second(true) => .. }` on the union of the sample. -/
def hiddenArms : List MatchArm :=
  [⟨.variant ⟨0, false⟩ (some 0) [] [], .absent⟩, ⟨.alternative ⟨1, false⟩
      [.variant ⟨2, false⟩ (some 0) [] [], .variant ⟨3, false⟩ (some 1) [⟨none, .pattern⟩]
          [.literal ⟨4, false⟩ (some (.scalar 0 (.boolean true)))]], .absent⟩]

/-- The second arm is reported as unreachable although it alone matches `.second(true)`. -/
theorem hidden_alternative_is_reported :
    (checkMatch sampleEnvironment ⟨.union 0 0, false, false⟩ false hiddenArms).unreachable = [1] ∧
      HasType sampleEnvironment (.union 1 [0] [.scalar (.boolean true)]) (.union 0 0) ∧
      ¬ ∀ report ∈ (checkMatch sampleEnvironment ⟨.union 0 0, false, false⟩ false hiddenArms).reports,
        report.Sound sampleEnvironment fun _ _ => false := by
  have typed : HasType sampleEnvironment (.union 1 [0] [.scalar (.boolean true)]) (.union 0 0) := by
    refine .union rfl (by decide) rfl rfl ?_
    intro field value ty listed known
    obtain ⟨rfl, rfl⟩ : field = 0 ∧ value = .scalar (.boolean true) := by simpa using listed
    cases known
    exact .boolean true rfl
  refine ⟨by decide +kernel, typed, ?_⟩
  intro sound
  obtain ⟨pattern, listed, accepted⟩ :=
    sound _ (.head _) rfl _ typed (by decide +kernel)
  rw [mem_singleton.mp listed] at accepted
  exact absurd accepted (by decide +kernel)

end Bray.Match
