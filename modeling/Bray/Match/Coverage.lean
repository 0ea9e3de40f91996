/-
  File:      Bray/Match/Coverage.lean
  Subject:   COVERAGE (`pattern/coverage.rs`): what the arms of a match cover together, as the checker
    keeps it, and the check of a match with its reports.

  A coverage is compact: whole variants, constants, absence, and one nested coverage for the values that
  are present. `Covers` says which values that stands for; merging is union, containment is inclusion,
  and an exhaustive coverage covers every value of the type.
-/
import Bray.Match.Check

namespace Bray.Match

open List

open Bray.Guarantee (ConstantValueKind)
open Bool (and_eq_true or_eq_true)

/-! ## 1. Coverages -/

/-- `Coverage`, without what is nested in it. -/
structure Facts where
  totalOrigin : Option PatternId := none
  isUnknown : Bool := false
  constants : List (Constant × PatternId) := []
  nullableAbsent : Option PatternId := none
  nullablePresentOrigin : Option PatternId := none
  variants : List (VariantId × PatternId) := []

/-- `Coverage`: without or with a coverage of the present values. -/
inductive Coverage where
  | leaf (facts : Facts)
  | nested (facts : Facts) (present : Coverage)

def Coverage.facts : Coverage → Facts
  | .leaf facts | .nested facts _ => facts

/-- `Coverage::default` -/
def Coverage.default : Coverage := .leaf {}

def Coverage.total (origin : PatternId) : Coverage := .leaf { totalOrigin := some origin }

def Coverage.unknown : Coverage := .leaf { isUnknown := true }

def Coverage.constant (value : Constant) (origin : PatternId) : Coverage := .leaf { constants := [(value, origin)] }

def Coverage.nullableAbsent (origin : PatternId) : Coverage := .leaf { nullableAbsent := some origin }

def Coverage.nullablePresent (origin : PatternId) (contained : Coverage) : Coverage :=
  .nested { nullablePresentOrigin := some origin } contained

def Coverage.variant (variant : VariantId) (origin : PatternId) : Coverage := .leaf { variants := [(variant, origin)] }

/-- `contains_key` -/
def Facts.hasVariant (facts : Facts) (variant : VariantId) : Bool :=
  facts.variants.any fun entry => entry.1 == variant

/-- `entry(variant).or_insert(origin)` for every entry of the second map. -/
def mergeVariants (current other : List (VariantId × PatternId)) : List (VariantId × PatternId) :=
  other.foldl (fun variants entry => if variants.any (fun kept => kept.1 == entry.1) then variants
    else variants ++ [entry]) current

def Facts.merge (facts other : Facts) : Facts where
  totalOrigin := facts.totalOrigin <|> other.totalOrigin
  isUnknown := facts.isUnknown || other.isUnknown
  constants := facts.constants ++ other.constants
  nullableAbsent := facts.nullableAbsent <|> other.nullableAbsent
  nullablePresentOrigin := facts.nullablePresentOrigin <|> other.nullablePresentOrigin
  variants := mergeVariants facts.variants other.variants

/-- `Coverage::merge` -/
def Coverage.merge : Coverage → Coverage → Coverage
  | .leaf facts, .leaf other => .leaf (facts.merge other)
  | .nested facts present, .leaf other => .nested (facts.merge other) present
  | .leaf facts, .nested other present => .nested (facts.merge other) (Coverage.default.merge present)
  | .nested facts present, .nested other present' => .nested (facts.merge other) (present.merge present')
termination_by structural _ coverage => coverage

/-- `Coverage::is_empty` -/
def Coverage.isEmpty : Coverage → Bool
  | .leaf facts => facts.totalOrigin.isNone && !facts.isUnknown && facts.constants.isEmpty &&
    facts.nullableAbsent.isNone && facts.variants.isEmpty
  | .nested .. => false

/-- `constants_contain` -/
def constantsContain (current other : List (Constant × PatternId)) : Bool :=
  other.all fun entry => current.any fun kept => constantValuesEqual kept.1 entry.1

/-- What `contains` asks of two coverages besides their present values. -/
def Facts.contains (facts other : Facts) (presentContained : Bool) : Bool :=
  other.totalOrigin.isSome && facts.totalOrigin.isSome ||
    other.totalOrigin.isNone &&
      (facts.totalOrigin.isSome ||
        constantsContain facts.constants other.constants &&
          (other.nullableAbsent.isNone || facts.nullableAbsent.isSome) && presentContained &&
          other.variants.all fun entry => facts.hasVariant entry.1)

/-- `Coverage::contains` -/
def Coverage.contains : Coverage → Coverage → Bool
  | coverage, .leaf other =>
    if (Coverage.leaf other).isEmpty || other.isUnknown then false else coverage.facts.contains other true
  | .leaf facts, .nested other _ => if other.isUnknown then false else facts.contains other false
  | .nested facts present, .nested other present' =>
    if other.isUnknown then false else facts.contains other (present.contains present')
termination_by structural _ coverage => coverage

/-- `Coverage::covering_patterns` -/
def Coverage.coveringPatterns (coverage other : Coverage) : Option (List PatternId) :=
  if coverage.contains other then
    match coverage.facts.totalOrigin with
    | some origin => some [origin]
    | none =>
      let constants := other.facts.constants.filterMap fun entry =>
        (coverage.facts.constants.find? fun kept => constantValuesEqual kept.1 entry.1).map Prod.snd
      let absent := if other.facts.nullableAbsent.isSome then coverage.facts.nullableAbsent.toList else []
      let present := match other with
        | .nested .. => coverage.facts.nullablePresentOrigin.toList
        | .leaf _ => []
      let variants := other.facts.variants.filterMap fun entry => coverage.facts.variants.lookup entry.1
      some (constants ++ absent ++ present ++ variants)
  else none

def Facts.hasBoolean (facts : Facts) (b : Bool) : Bool :=
  facts.constants.any fun entry => match entry.1 with
    | .scalar _ (.boolean value) => value == b
    | _ => false

/-- `Coverage::is_exhaustive` -/
def Coverage.isExhaustive (env : Environment) : Coverage → Ty → Bool
  | .nested facts present, .nullable target =>
    facts.totalOrigin.isSome || facts.nullableAbsent.isSome && present.isExhaustive env target
  | .leaf facts, .nullable _ => facts.totalOrigin.isSome
  | coverage, .union definition _ =>
    coverage.facts.totalOrigin.isSome || (env.variants definition).all coverage.facts.hasVariant
  | coverage, .struct definition _ =>
    coverage.facts.totalOrigin.isSome ||
      env.boolean == some definition && coverage.facts.hasBoolean false && coverage.facts.hasBoolean true
  | coverage, _ => coverage.facts.totalOrigin.isSome
termination_by structural coverage => coverage

/-! ## 2. What a coverage stands for -/

/-- The values of a coverage that are not nested. -/
def Facts.Covers (facts : Facts) (value : Value) : Prop :=
  facts.totalOrigin.isSome ∨ (∃ entry ∈ facts.constants, entry.1.equals value) ∨
    (facts.nullableAbsent.isSome ∧ value = .absent) ∨
    ∃ variant, facts.hasVariant variant ∧ value.mayBe variant

/-- **The values that a coverage stands for.** -/
def Coverage.Covers : Coverage → Value → Prop
  | .leaf facts, value => facts.Covers value.unborrowed
  | .nested facts present, value =>
    facts.Covers value.unborrowed ∨ ∃ part, value.unborrowed = .present part ∧ present.Covers part

/-- The value is one of those about which the coverage knows nothing. -/
def Coverage.Unclear : Coverage → Value → Prop
  | .leaf facts, _ => facts.isUnknown
  | .nested facts present, value =>
    facts.isUnknown ∨ ∃ part, value.unborrowed = .present part ∧ present.Unclear part

theorem hasVariant_mergeVariants (variant : VariantId) : ∀ other current : List (VariantId × PatternId),
    (mergeVariants current other).any (fun entry => entry.1 == variant) ↔
      current.any (fun entry => entry.1 == variant) ∨ other.any (fun entry => entry.1 == variant) := by
  intro other
  induction other with
  | nil => simp [mergeVariants]
  | cons entry rest ih =>
    intro current
    rw [mergeVariants, foldl_cons, ← mergeVariants, ih]
    split
    · next kept =>
      simp only [any_cons, or_eq_true, beq_iff_eq]
      constructor
      · intro found
        exact found.imp_right .inr
      · intro found
        rcases found with found | rfl | found
        · exact .inl found
        · exact .inl kept
        · exact .inr found
    · simp [any_append, any_cons, any_nil, Bool.or_false, or_eq_true, or_assoc]

/-- Merging is union. -/
theorem Facts.covers_merge (facts other : Facts) (value : Value) :
    (facts.merge other).Covers value ↔ facts.Covers value ∨ other.Covers value := by
  have variants : ∀ variant, (facts.merge other).hasVariant variant ↔
    facts.hasVariant variant ∨ other.hasVariant variant :=
    fun variant => hasVariant_mergeVariants variant other.variants facts.variants
  have total : (facts.merge other).totalOrigin.isSome ↔ facts.totalOrigin.isSome ∨ other.totalOrigin.isSome := by
    simp [Facts.merge]
  have absent : (facts.merge other).nullableAbsent.isSome ↔
    facts.nullableAbsent.isSome ∨ other.nullableAbsent.isSome := by
    simp [Facts.merge]
  have constants : (∃ entry ∈ (facts.merge other).constants, entry.1.equals value) ↔
    (∃ entry ∈ facts.constants, entry.1.equals value) ∨ ∃ entry ∈ other.constants, entry.1.equals value := by
    simp [Facts.merge, mem_append, or_and_right, exists_or]
  simp only [Facts.Covers, variants, total, absent, constants, or_and_right, exists_or]
  exact (or_congr_right ((or_congr_right or_or_or_comm).trans or_or_or_comm)).trans or_or_or_comm

theorem Facts.not_covers_default (value : Value) : ¬ (({} : Facts).Covers value) := by
  simp [Facts.Covers, Facts.hasVariant]

theorem Coverage.covers_merge : ∀ (coverage other : Coverage) (value : Value),
    (coverage.merge other).Covers value ↔ coverage.Covers value ∨ other.Covers value
  | .leaf facts, .leaf other, value => facts.covers_merge other value.unborrowed
  | .nested facts present, .leaf other, value => by
    simp only [Coverage.merge, Coverage.Covers, Facts.covers_merge]
    exact or_right_comm
  | .leaf facts, .nested other present, value => by
    have nothing : ∀ part, ¬ Coverage.default.Covers part := fun part => Facts.not_covers_default _
    simp only [Coverage.merge, Coverage.Covers, Facts.covers_merge, Coverage.covers_merge Coverage.default present,
      nothing, false_or]
    exact or_assoc
  | .nested facts present, .nested other present', value => by
    simp only [Coverage.merge, Coverage.Covers, Facts.covers_merge, Coverage.covers_merge present present',
      and_or_left, exists_or]
    exact or_or_or_comm

theorem Coverage.unclear_merge : ∀ (coverage other : Coverage) (value : Value),
    (coverage.merge other).Unclear value ↔ coverage.Unclear value ∨ other.Unclear value
  | .leaf facts, .leaf other, _ => by
    simp [Coverage.merge, Coverage.Unclear, Facts.merge]
  | .nested facts present, .leaf other, value => by
    simp only [Coverage.merge, Coverage.Unclear, Facts.merge, or_eq_true]
    exact or_right_comm
  | .leaf facts, .nested other present, value => by
    have nothing : ∀ part, ¬ Coverage.default.Unclear part := by simp [Coverage.default, Coverage.Unclear]
    simp only [Coverage.merge, Coverage.Unclear, Facts.merge, or_eq_true,
      Coverage.unclear_merge Coverage.default present, nothing, false_or]
    exact or_assoc
  | .nested facts present, .nested other present', value => by
    simp only [Coverage.merge, Coverage.Unclear, Facts.merge, or_eq_true,
      Coverage.unclear_merge present present', and_or_left, exists_or]
    exact or_or_or_comm

theorem Facts.covers_of_contains {facts other : Facts} {present : Bool} (contained : facts.contains other present)
    {value : Value} (covered : other.Covers value) : facts.Covers value := by
  by_cases total : facts.totalOrigin.isSome
  · exact .inl total
  simp only [Facts.contains, total, Bool.and_false, Bool.false_or, and_eq_true, Option.isNone_iff_eq_none,
    or_eq_true] at contained
  obtain ⟨partly, ⟨⟨constants, absent⟩, -⟩, variants⟩ := contained
  rcases covered with whole | ⟨entry, listed, equal⟩ | ⟨found, rfl⟩ | ⟨variant, found, active⟩
  · rw [partly] at whole
    cases whole
  · obtain ⟨kept, member, same⟩ := any_eq_true.mp (all_eq_true.mp constants entry listed)
    exact .inr (.inl ⟨kept, member, equals_of_constantValuesEqual _ _ _ same equal⟩)
  · refine .inr (.inr (.inl ⟨absent.resolve_left ?_, rfl⟩))
    intro missing
    rw [missing] at found
    cases found
  · obtain ⟨entry, listed, same⟩ := any_eq_true.mp found
    have kept := all_eq_true.mp variants entry listed
    rw [beq_iff_eq.mp same] at kept
    exact .inr (.inr (.inr ⟨variant, kept, active⟩))

theorem Facts.present_of_contains {facts other : Facts} {present : Bool} (contained : facts.contains other present) :
    facts.totalOrigin.isSome ∨ present := by
  by_cases total : facts.totalOrigin.isSome
  · exact .inl total
  simp only [Facts.contains, total, Bool.and_false, Bool.false_or, and_eq_true] at contained
  exact .inr contained.2.1.2

theorem Coverage.covers_total {coverage : Coverage} (total : coverage.facts.totalOrigin.isSome) (value : Value) :
    coverage.Covers value := by
  cases coverage with
  | leaf facts => exact .inl total
  | nested facts present => exact .inl (.inl total)

theorem Coverage.covers_facts {coverage : Coverage} {value : Value}
    (covered : coverage.facts.Covers value.unborrowed) : coverage.Covers value := by
  cases coverage with
  | leaf facts => exact covered
  | nested facts present => exact .inl covered

theorem Facts.equals_of_hasBoolean {facts : Facts} {b : Bool} (found : facts.hasBoolean b) :
    ∃ entry ∈ facts.constants, entry.1.equals (.scalar (.boolean b)) := by
  obtain ⟨entry, listed, same⟩ := any_eq_true.mp found
  refine ⟨entry, listed, ?_⟩
  split at same
  · next constant =>
    rw [constant, ← beq_iff_eq.mp same]
    simp [Constant.equals, scalarsEqual_iff, ConstantValueKind.rank, Lib.Unordered.Same]
  · cases same

/-- **Containment is inclusion.** -/
theorem Coverage.covers_of_contains : ∀ (coverage other : Coverage) (value : Value),
    coverage.contains other → other.Covers value → coverage.Covers value
  | coverage, .leaf other, value, contained, covered => by
    simp only [Coverage.contains] at contained
    split at contained
    · cases contained
    have facts := Facts.covers_of_contains contained covered
    cases coverage with
    | leaf => exact facts
    | nested => exact .inl facts
  | .leaf facts, .nested other present, value, contained, covered => by
    simp only [Coverage.contains] at contained
    split at contained
    · cases contained
    rcases covered with covered | _
    · exact Facts.covers_of_contains contained covered
    · exact .inl ((Facts.present_of_contains contained).resolve_right (by simp))
  | .nested facts present, .nested other present', value, contained, covered => by
    simp only [Coverage.contains] at contained
    split at contained
    · cases contained
    rcases covered with covered | ⟨part, found, covered⟩
    · exact .inl (Facts.covers_of_contains contained covered)
    · rcases Facts.present_of_contains contained with total | nested
      · exact .inl (.inl total)
      · exact .inr ⟨part, found, covers_of_contains present present' part nested covered⟩

/-- What is contained is known, except below a coverage that is total. -/
theorem Coverage.covers_of_unclear : ∀ (coverage other : Coverage) (value : Value),
    coverage.contains other → other.Unclear value → coverage.Covers value
  | coverage, .leaf other, value, contained, unclear => by
    simp only [Coverage.contains] at contained
    split at contained
    · cases contained
    · next known => exact absurd (by simp [show other.isUnknown = true from unclear]) known
  | .leaf facts, .nested other present, value, contained, unclear => by
    simp only [Coverage.contains] at contained
    split at contained
    · cases contained
    · exact Or.inl ((Facts.present_of_contains contained).resolve_right (by simp))
  | .nested facts present, .nested other present', value, contained, unclear => by
    simp only [Coverage.contains] at contained
    split at contained
    · cases contained
    next known =>
    obtain ⟨part, found, unclear⟩ := unclear.resolve_left known
    rcases Facts.present_of_contains contained with total | nested
    · exact .inl (.inl total)
    · exact .inr ⟨part, found, covers_of_unclear present present' part nested unclear⟩

theorem Coverage.isExhaustive_union (env : Environment) (coverage : Coverage) (definition : UnionId)
    (substitution : SubstitutionId) : coverage.isExhaustive env (.union definition substitution) =
      (coverage.facts.totalOrigin.isSome || (env.variants definition).all coverage.facts.hasVariant) := by
  cases coverage <;> rfl

theorem Coverage.covers_of_isExhaustive {env : Environment} : ∀ (coverage : Coverage) (ty : Ty) (value : Value),
    coverage.isExhaustive env ty → HasType env value ty → coverage.Covers value
  | coverage, _, _, exhaustive, .union tagged declared complete arity typed => by
    rw [Coverage.isExhaustive_union, or_eq_true] at exhaustive
    rcases exhaustive with total | all
    · exact Coverage.covers_total total _
    · refine Coverage.covers_facts (Or.inr (Or.inr (Or.inr ⟨_, all_eq_true.mp all _ declared, ?_⟩)))
      simp [Value.unborrowed, Value.mayBe]
  | coverage, _, _, exhaustive, .tagless untagged declared complete arity typed => by
    rw [Coverage.isExhaustive_union, or_eq_true] at exhaustive
    rcases exhaustive with total | all
    · exact Coverage.covers_total total _
    · obtain ⟨variant, listed⟩ := exists_mem_of_ne_nil _ declared
      exact Coverage.covers_facts (.inr (.inr (.inr ⟨variant, all_eq_true.mp all _ listed, rfl⟩)))
  | coverage, _, _, exhaustive, .boolean b role => by
    have exhaustive : coverage.facts.totalOrigin.isSome ∨ coverage.facts.hasBoolean b := by
      cases coverage <;> cases b <;>
        simp only [Coverage.isExhaustive, or_eq_true, and_eq_true] at exhaustive <;>
        exact exhaustive.imp_right fun both => by first | exact both.2 | exact both.1.2
    rcases exhaustive with total | found
    · exact Coverage.covers_total total _
    · exact Coverage.covers_facts (.inr (.inl (Facts.equals_of_hasBoolean found)))
  | coverage, _, _, exhaustive, .scalar kind role plain => by
    refine Coverage.covers_total ?_ _
    cases coverage <;> simpa [Coverage.isExhaustive, role] using exhaustive
  | coverage, _, _, exhaustive, .product role complete arity typed => by
    refine Coverage.covers_total ?_ _
    cases coverage <;> simpa [Coverage.isExhaustive, role] using exhaustive
  | .leaf facts, _, _, exhaustive, .absent => .inl exhaustive
  | .leaf facts, _, _, exhaustive, .present typed => .inl exhaustive
  | .nested facts present, _, _, exhaustive, .absent => by
    simp only [Coverage.isExhaustive, or_eq_true, and_eq_true] at exhaustive
    rcases exhaustive with total | both
    · exact .inl (.inl total)
    · exact .inl (.inr (.inr (.inl ⟨both.1, rfl⟩)))
  | .nested facts present, _, _, exhaustive, .present typed => by
    simp only [Coverage.isExhaustive, or_eq_true, and_eq_true] at exhaustive
    rcases exhaustive with total | both
    · exact .inl (.inl total)
    · exact .inr ⟨_, rfl, covers_of_isExhaustive present _ _ both.2 typed⟩
  | coverage, _, _, exhaustive, .tuple _ _ | coverage, _, _, exhaustive, .array _ _
  | coverage, _, _, exhaustive, .slice _ | coverage, _, _, exhaustive, .borrowed _
  | coverage, _, _, exhaustive, .owned _ | coverage, _, _, exhaustive, .other _ => by
    refine Coverage.covers_total ?_ _
    cases coverage <;> exact exhaustive

end Bray.Match
