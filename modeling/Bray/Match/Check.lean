/-
  File:      Bray/Match/Check.lean
  Subject:   CHECKED PATTERNS (`pattern/check`, `pattern/compatibility.rs`): the subjects of the children,
    the compatibility of a pattern with its subject, its refutability, and the tests it is
    lowered to (`lower_pattern_tests`).

  An irrefutable pattern matches every value of the type of its subject (`matches_of_irrefutable`).
-/
import Bray.Match.Data

namespace Bray.Match

open List

open Bool (and_eq_true)

/-! ## 1. Subjects of the children -/

/-- `PatternSubject` -/
structure Subject where
  ty : Ty
  isRecovered : Bool
  /-- The subject stands under a trust boundary. -/
  trustedVariant : Bool

/-- `subject` -/
def Subject.of (ty : Ty) (isRecovered : Bool) : Subject := ⟨ty, isRecovered, false⟩

/-- `recovered_subject` -/
def Subject.recovered : Subject := ⟨.error, true, false⟩

/-- `matched_subject` -/
def Subject.matched (subject : Subject) : Subject := { subject with ty := subject.ty.unborrowed }

/-- The subject of a child and where it is found. -/
structure Place where
  subject : Subject
  projection : Option Projection

/-- What a child has that was given no subject. -/
def Place.recovered : Place := ⟨.recovered, none⟩

/-- The value of a child's subject. -/
def Place.reach (place : Place) (value : Value) : Option Value :=
  match place.projection with
  | none => some value
  | some projection => projection.select value.unborrowed

/-- `PatternChildren` -/
structure PatternChildren where
  patterns : List Place
  isRecovered : Bool

def PatternChildren.first (children : PatternChildren) : Place := children.patterns.head?.getD .recovered

section Subjects

variable (env : Environment)

/-- `field_subject` -/
def fieldSubject (field : FieldId) (substitution : SubstitutionId) : Subject :=
  match env.fieldType field substitution with
  | some ty => .of ty false
  | none => .recovered

/-- `union_payload_field`: the payload field of an entry, and whether it takes a position. -/
def unionPayloadField (variant : VariantId) (entry : PatternEntry) (position : Nat) : Option (FieldId × Bool) :=
  let positional := ((env.payloadFields variant)[position]?).filter PayloadField.isPositional |>.map PayloadField.field
  if entry.name.isNone || entry.kind == .binding && positional.isSome then positional.map (·, true)
  else
    entry.name.bind fun name =>
      ((env.payloadFields variant).find? fun payload => payload.name == name).map fun payload => (payload.field, false)

def payloadEntries (variant : VariantId) : Nat → List PatternEntry → List (PatternEntry × Option FieldId)
  | _, [] => []
  | position, entry :: rest =>
    if entry.isRemaining then payloadEntries variant position rest
    else
      match unionPayloadField env variant entry position with
      | some (field, consumesPosition) =>
        (entry, some field) :: payloadEntries variant (if consumesPosition then position + 1 else position) rest
      | none =>
        (entry, none) ::
          payloadEntries variant (if entry.name.isNone || entry.kind == .binding then position + 1 else position) rest

def productEntries (definition : StructId) (entries : List PatternEntry) : List (PatternEntry × Option FieldId) :=
  (entries.filter fun entry => !entry.isRemaining).map fun entry =>
    (entry, entry.name.bind fun name => (env.fields definition).lookup name)

/-- The elements of the entries of an array, in order: from the start before the remaining elements, from
the end after them. -/
def elementEntries : Bool → Nat → List PatternEntry → List (PatternEntry × Projection)
  | _, _, [] => []
  | afterRemaining, position, entry :: rest =>
    if entry.isRemaining then elementEntries true position rest
    else if afterRemaining then
      (entry, .elementFromEnd (rest.filter fun entry => !entry.isRemaining).length) ::
        elementEntries afterRemaining position rest
    else (entry, .elementFromStart position) :: elementEntries afterRemaining (position + 1) rest

/-- The places of the entries that have a pattern; an entry without a place is recovered. -/
def entryChildren (entries : List (PatternEntry × Option Place)) : PatternChildren where
  patterns := (entries.filter fun entry => entry.1.kind == .pattern).map fun entry => entry.2.getD .recovered
  isRecovered := entries.any fun entry => (entry.2.getD .recovered).subject.isRecovered

/-- `child_subjects`, for a subject without borrows except under a group and an alternative. -/
def childSubjects (subject : Subject) (pattern : Pattern) : PatternChildren :=
  let matched := subject.matched
  match pattern, matched.ty with
  | .grouped .., _ | .alternative .., _ =>
    ⟨pattern.children.map fun _ => ⟨subject, none⟩, false⟩
  | .nullablePresent .., .nullable target =>
    ⟨[⟨.of target matched.isRecovered, some .nullableValue⟩], false⟩
  | .box .., .ownedIndirection target =>
    ⟨[⟨.of target matched.isRecovered, some .ownedTarget⟩], false⟩
  | .tuple _ children, .tuple elements =>
    let subjects := children.mapIdx fun index _ =>
      (elements[index]?).elim Subject.recovered fun ty => .of ty matched.isRecovered
    ⟨subjects.mapIdx fun index subject => ⟨subject, some (.tupleElement index)⟩, subjects.any Subject.isRecovered⟩
  | .array _ entries _, .array element _ | .array _ entries _, .slice element =>
    entryChildren ((elementEntries false 0 entries).map fun entry =>
      (entry.1, some ⟨.of element matched.isRecovered, some entry.2⟩))
  | .product _ entries _, .struct definition substitution =>
    entryChildren ((productEntries env definition entries).map fun entry =>
      (entry.1, entry.2.map fun field => ⟨fieldSubject env field substitution, some (.productField field)⟩))
  | .variant _ (some variant) entries _, .union _ substitution =>
    entryChildren ((payloadEntries env variant 0 entries).map fun entry =>
      (entry.1, entry.2.map fun field =>
        ⟨fieldSubject env field substitution, some (.activeUnionPayloadField variant field)⟩))
  | _, _ => ⟨pattern.children.map fun _ => .recovered, !pattern.children.isEmpty⟩

end Subjects

/-! ## 2. Compatibility and refutability -/

section Compatibility

variable (env : Environment)

/-- The selected names or fields are distinct, and they are all of them unless the rest is skipped. -/
def selectsAll (selected : List Nat) (hasRemaining : Bool) (count : Nat) : Bool :=
  decide selected.Nodup && (hasRemaining || selected.length == count)

/-- `product_shape_is_compatible` -/
def productShapeIsCompatible (entries : List PatternEntry) : Ty → Bool
  | .struct definition _ =>
    let selected := entries.filter fun entry => !entry.isRemaining
    !env.hasFlexibleTrailingMember definition &&
      (selected.all fun entry => entry.name.any fun name => ((env.fields definition).lookup name).isSome) &&
      selectsAll (selected.filterMap PatternEntry.name) (entries.any PatternEntry.isRemaining)
        (env.fields definition).length
  | _ => false

/-- `array_shape_is_compatible` -/
def arrayShapeIsCompatible (entries : List PatternEntry) : Ty → Bool
  | .array _ length =>
    let explicit := (entries.filter fun entry => !entry.isRemaining).length
    length.any fun length =>
      if entries.any PatternEntry.isRemaining then decide (explicit ≤ length) else explicit == length
  | .slice _ => true
  | _ => false

/-- `variant_shape_is_compatible` -/
def variantShapeIsCompatible (target : Option VariantId) (entries : List PatternEntry) : Ty → Bool
  | .union definition _ =>
    target.any fun variant =>
      let selected := payloadEntries env variant 0 entries
      env.unionOf variant == definition && (selected.all fun entry => entry.2.isSome) &&
        selectsAll (selected.filterMap Prod.snd) (entries.any PatternEntry.isRemaining)
          (env.payloadFields variant).length
  | _ => false

/-- `tagless_union` -/
def taglessUnion : Ty → Bool
  | .union definition _ => env.isTaglessUnion definition
  | _ => false

/-- `only_union_variant` -/
def onlyUnionVariant (target : Option VariantId) : Ty → Bool
  | .union definition _ => target.any fun variant => env.variants definition == [variant]
  | _ => false

/-- `pattern_is_compatible`, with what `check_pattern` adds to it. -/
def patternIsCompatible (subject : Subject) : Pattern → Bool
  | .literal _ value => value.isSome
  | .nullableAbsent .. | .nullablePresent .. => match subject.matched.ty with
    | .nullable _ => true
    | _ => false
  | .box .. => match subject.matched.ty with
    | .ownedIndirection _ => true
    | _ => false
  | .product _ entries _ => productShapeIsCompatible env entries subject.matched.ty
  | .tuple _ children => match subject.matched.ty with
    | .tuple elements => elements.length == children.length
    | _ => false
  | .array _ entries _ => arrayShapeIsCompatible entries subject.matched.ty
  | .variant _ target entries _ =>
    variantShapeIsCompatible env target entries subject.matched.ty &&
      !(taglessUnion env subject.matched.ty && !subject.trustedVariant &&
        !onlyUnionVariant env target subject.matched.ty)
  | _ => true

/-- `pattern_shape_is_total` -/
def patternShapeIsTotal (subject : Subject) (pattern : Pattern) : Bool :=
  patternIsCompatible env subject pattern &&
    match pattern, subject.matched.ty with
    | .product .., _ | .tuple .., _ => true
    | .array .., .array .. => true
    | .array _ entries _, .slice _ => entries.length == 1 && entries.all PatternEntry.isRemaining
    | .variant _ target _ _, .union .. =>
      subject.trustedVariant && taglessUnion env subject.matched.ty ||
        onlyUnionVariant env target subject.matched.ty
    | _, _ => false

inductive PatternRefutability where
  | irrefutable
  | refutable
  | recovered
  deriving DecidableEq

/-- `pattern_refutability` -/
def patternRefutability (pattern : Pattern) (children : List PatternRefutability) (isCompatible shapeIsTotal isRecovered : Bool) :
  PatternRefutability :=
  let childrenAreTotal := children.all fun child => child == .irrefutable
  match pattern with
  | .error .. => .recovered
  | _ =>
    if isRecovered then .recovered
    else
      match pattern with
      | .binding .. | .discard .. | .remaining .. => .irrefutable
      | .product .. | .tuple .. | .array .. | .variant .. =>
        if isCompatible && shapeIsTotal && childrenAreTotal then .irrefutable else .refutable
      | .grouped .. | .box .. => if childrenAreTotal then .irrefutable else .refutable
      | _ => .refutable

/-- The constant of the pattern is the one of a failed evaluation. -/
def isErrorConstant : Pattern → Bool
  | .path _ (some (.value (.scalar _ .error))) => true
  | _ => false

/-- What `check_pattern` does at one node, once the children are checked. -/
def assess (subject : Subject) (pattern : Pattern) (children : List PatternRefutability) : PatternRefutability :=
  let compatible := patternIsCompatible env subject pattern
  let isRecovered := pattern.header.isRecovered || subject.isRecovered ||
    (pattern.entries.any fun entry => entry.kind == .recovered) ||
    (children.any fun child => child == .recovered) ||
    (childSubjects env subject pattern).isRecovered || isErrorConstant pattern ||
    (match subject.matched.ty with | .error => true | _ => false) || !compatible
  patternRefutability pattern children compatible (patternShapeIsTotal env subject pattern) isRecovered

mutual
/-- The refutability that `check_pattern` records for a pattern. -/
def refutability : Pattern → Subject → PatternRefutability
  | .nullablePresent header child, subject =>
    let pattern := Pattern.nullablePresent header child
    assess env subject pattern [refutability child (childSubjects env subject pattern).first.subject]
  | .box header child, subject =>
    let pattern := Pattern.box header child
    assess env subject pattern [refutability child (childSubjects env subject pattern).first.subject]
  | .grouped header child, subject =>
    let pattern := Pattern.grouped header child
    assess env subject pattern [refutability child (childSubjects env subject pattern).first.subject]
  | .variant header target entries children, subject =>
    let pattern := Pattern.variant header target entries children
    assess env subject pattern (refutabilities children (childSubjects env subject pattern).patterns)
  | .product header entries children, subject =>
    let pattern := Pattern.product header entries children
    assess env subject pattern (refutabilities children (childSubjects env subject pattern).patterns)
  | .array header entries children, subject =>
    let pattern := Pattern.array header entries children
    assess env subject pattern (refutabilities children (childSubjects env subject pattern).patterns)
  | .tuple header children, subject =>
    let pattern := Pattern.tuple header children
    assess env subject pattern (refutabilities children (childSubjects env subject pattern).patterns)
  | .alternative header children, subject =>
    let pattern := Pattern.alternative header children
    assess env subject pattern (refutabilities children (childSubjects env subject pattern).patterns)
  | pattern, subject => assess env subject pattern []
termination_by structural pattern => pattern
def refutabilities : List Pattern → List Place → List PatternRefutability
  | [], _ => []
  | child :: rest, places =>
    refutability child (places.head?.getD .recovered).subject :: refutabilities rest places.tail
termination_by structural patterns => patterns
end

end Compatibility

/-! ## 3. Tests -/

section Tests

variable (env : Environment) (holds : Nat → Value → Bool)

/-- The test of a pattern (`pattern_predicate`) on the value behind the borrows. A constant term that is
not closed is compared when the program runs: `holds` says with what result. -/
def passesTest (subject : Subject) (pattern : Pattern) (value : Value) : Bool :=
  match pattern, subject.matched.ty, value with
  | .literal _ (some constant), _, value => constant.equals value
  | .path _ (some (.value constant)), _, value => constant.equals value
  | .path _ (some (.term term)), _, value => holds term value
  | .nullableAbsent _, .nullable _, .absent => true
  | .nullableAbsent _, .nullable _, _ => false
  | .nullablePresent .., .nullable _, .present _ => true
  | .nullablePresent .., .nullable _, _ => false
  | .variant _ (some variant) _ _, .union definition _, .union active _ _ =>
    env.isTaglessUnion definition || active == variant
  | .variant _ (some _) _ _, .union definition _, _ => env.isTaglessUnion definition
  | .tuple .., .tuple elements, .tuple values => values.length == elements.length
  | .tuple .., .tuple _, _ => false
  | .array .., .array _ (some length), .array values => values.length == length
  | .array .., .array _ (some _), _ => false
  | .box .., .ownedIndirection _, .owned _ => true
  | .box .., .ownedIndirection _, _ => false
  | _, _, _ => true

mutual
/-- **Whether a pattern matches a value of its subject**: `lower_pattern_tests`. A part that a projection
does not find matches nothing. -/
def accepts : Pattern → Subject → Value → Bool
  | .nullablePresent header child, subject, value =>
    let pattern := Pattern.nullablePresent header child
    let place := (childSubjects env subject pattern).first
    passesTest env holds subject pattern value.unborrowed &&
      (place.reach value).any fun part => accepts child place.subject part
  | .box header child, subject, value =>
    let pattern := Pattern.box header child
    let place := (childSubjects env subject pattern).first
    passesTest env holds subject pattern value.unborrowed &&
      (place.reach value).any fun part => accepts child place.subject part
  | .grouped header child, subject, value =>
    let pattern := Pattern.grouped header child
    let place := (childSubjects env subject pattern).first
    passesTest env holds subject pattern value.unborrowed &&
      (place.reach value).any fun part => accepts child place.subject part
  | .variant header target entries children, subject, value =>
    let pattern := Pattern.variant header target entries children
    passesTest env holds subject pattern value.unborrowed &&
      acceptsAll children (childSubjects env subject pattern).patterns value
  | .product header entries children, subject, value =>
    let pattern := Pattern.product header entries children
    passesTest env holds subject pattern value.unborrowed &&
      acceptsAll children (childSubjects env subject pattern).patterns value
  | .array header entries children, subject, value =>
    let pattern := Pattern.array header entries children
    passesTest env holds subject pattern value.unborrowed &&
      acceptsAll children (childSubjects env subject pattern).patterns value
  | .tuple header children, subject, value =>
    let pattern := Pattern.tuple header children
    passesTest env holds subject pattern value.unborrowed &&
      acceptsAll children (childSubjects env subject pattern).patterns value
  | .alternative header children, subject, value =>
    acceptsAny children (childSubjects env subject (.alternative header children)).patterns value
  | pattern, subject, value => passesTest env holds subject pattern value.unborrowed
termination_by structural pattern => pattern
/-- The children of a structure are tested one after the other. -/
def acceptsAll : List Pattern → List Place → Value → Bool
  | [], _, _ => true
  | child :: rest, places, value =>
    let place := places.head?.getD .recovered
    ((place.reach value).any fun part => accepts child place.subject part) && acceptsAll rest places.tail value
termination_by structural patterns => patterns
/-- The next alternative is tried when one does not match. -/
def acceptsAny : List Pattern → List Place → Value → Bool
  | [], _, _ => false
  | child :: rest, places, value =>
    let place := places.head?.getD .recovered
    ((place.reach value).any fun part => accepts child place.subject part) || acceptsAny rest places.tail value
termination_by structural patterns => patterns
end

end Tests

/-! ## 4. Irrefutable patterns match -/

section Irrefutable

variable {env : Environment} {holds : Nat → Value → Bool}

/-- The place has a value of its type. -/
def Reached (env : Environment) (value : Value) (place : Place) : Prop :=
  ∃ part, place.reach value = some part ∧ HasType env part place.subject.ty

theorem lookup_zip {fields : List FieldId} {values : List Value} (arity : values.length = fields.length)
    {field : FieldId} (listed : field ∈ fields) :
    ∃ value, (fields.zip values).lookup field = some value ∧ (field, value) ∈ fields.zip values := by
  induction fields generalizing values with
  | nil => cases listed
  | cons first rest ih =>
    cases values with
    | nil => cases arity
    | cons value values =>
      by_cases same : field = first
      · exact ⟨value, by simp [same], by simp [same]⟩
      · obtain ⟨found, looked, member⟩ := ih (Nat.succ.inj arity) ((mem_cons.mp listed).resolve_left same)
        refine ⟨found, ?_, .tail _ member⟩
        rw [zip_cons_cons, lookup_cons, beq_false_of_ne same]
        exact looked

/-- Where the children are not recovered, every place of an entry is one that was computed. -/
theorem entryChildren_places {entries : List (PatternEntry × Option Place)}
    (sound : (entryChildren entries).isRecovered = false) {place : Place}
    (listed : place ∈ (entryChildren entries).patterns) :
    ∃ entry, (entry, some place) ∈ entries ∧ place.subject.isRecovered = false := by
  obtain ⟨⟨entry, found⟩, member, rfl⟩ := mem_map.mp listed
  have member := (mem_filter.mp member).1
  have unrecovered : ¬ (found.getD Place.recovered).subject.isRecovered = true := by
    intro recovered
    rw [entryChildren, any_eq_false] at sound
    exact sound _ member recovered
  cases found with
  | none => exact absurd rfl unrecovered
  | some place => exact ⟨entry, member, by simpa using unrecovered⟩

variable {substitution : SubstitutionId}

theorem fieldSubject_eq {field : FieldId} (sound : (fieldSubject env field substitution).isRecovered = false) :
    env.fieldType field substitution = some (fieldSubject env field substitution).ty := by
  unfold fieldSubject at sound ⊢
  cases found : env.fieldType field substitution with
  | none =>
    rw [found] at sound
    cases sound
  | some ty => rfl

theorem count_elementEntries {entry : PatternEntry} {projection : Projection} :
    ∀ {entries : List PatternEntry} {afterRemaining : Bool} {position : Nat},
      (entry, projection) ∈ elementEntries afterRemaining position entries →
      ∃ index, index < position + (entries.filter fun entry => !entry.isRemaining).length ∧
        (projection = .elementFromStart index ∨ projection = .elementFromEnd index ∧
           index < (entries.filter fun entry => !entry.isRemaining).length) := by
  intro entries
  induction entries with
  | nil =>
    intro afterRemaining position listed
    cases listed
  | cons first rest ih =>
    intro afterRemaining position listed
    unfold elementEntries at listed
    split at listed
    · next skipped =>
      obtain ⟨index, bound, which⟩ := ih listed
      exact ⟨index, by simpa [skipped] using bound, by simpa [skipped] using which⟩
    · next kept =>
      have longer : (List.filter (fun entry => !entry.isRemaining) (first :: rest)).length =
        (List.filter (fun entry => !entry.isRemaining) rest).length + 1 := by
        simp [kept]
      split at listed
      · rcases mem_cons.mp listed with same | listed
        · cases same
          exact ⟨_, by omega, .inr ⟨rfl, by omega⟩⟩
        · obtain ⟨index, bound, which⟩ := ih listed
          refine ⟨index, by omega, which.imp_right ?_⟩
          intro ⟨same, bound⟩
          exact ⟨same, by omega⟩
      · rcases mem_cons.mp listed with same | listed
        · cases same
          exact ⟨position, by omega, .inl rfl⟩
        · obtain ⟨index, bound, which⟩ := ih listed
          refine ⟨index, by omega, which.imp_right ?_⟩
          intro ⟨same, bound⟩
          exact ⟨same, by omega⟩

variable {value : Value} {subject : Subject}

variable {header : Header} {children : List Pattern}

/-- The places of a tuple are found in every tuple of its type. -/
theorem reached_tuple {elements : List Ty}
    (shape : subject.matched.ty = .tuple elements) (arity : elements.length = children.length)
    (typed : HasType env value.unborrowed (.tuple elements)) :
    ∀ place ∈ (childSubjects env subject (.tuple header children)).patterns, Reached env value place := by
  cases found : value.unborrowed with
  | tuple values =>
    rw [found] at typed
    cases typed with
    | tuple size typed =>
      intro place listed
      simp only [childSubjects, shape, mem_mapIdx, length_mapIdx, getElem_mapIdx] at listed
      obtain ⟨index, bound, rfl⟩ := listed
      have within : index < elements.length := by omega
      have inside : index < values.length := by omega
      refine ⟨values[index], ?_, ?_⟩
      · simp only [Place.reach, found, Projection.select]
        exact getElem?_eq_getElem inside
      · simp only [getElem?_eq_getElem within, Option.elim_some]
        exact typed index _ _ (getElem?_eq_getElem inside) (getElem?_eq_getElem within)
  | _ =>
    rw [found] at typed
    cases typed

variable {entries : List PatternEntry}

/-- The places of an array are found in every array of its length. -/
theorem reached_array {element : Ty} {length : Option Nat} (shape : subject.matched.ty = .array element length)
    (compatible : arrayShapeIsCompatible entries (.array element length))
    (typed : HasType env value.unborrowed (.array element length))
    (sound : (childSubjects env subject (.array header entries children)).isRecovered = false) :
    ∀ place ∈ (childSubjects env subject (.array header entries children)).patterns, Reached env value place := by
  cases found : value.unborrowed with
  | array values =>
    rw [found] at typed
    cases typed with
    | array size typed =>
      cases length with
      | none => cases compatible
      | some length =>
        have fits : (entries.filter fun entry => !entry.isRemaining).length ≤ values.length := by
          rw [size length rfl]
          simp only [arrayShapeIsCompatible, Option.any_some] at compatible
          split at compatible
          · exact of_decide_eq_true compatible
          · exact (beq_iff_eq.mp compatible).le
        intro place listed
        simp only [childSubjects, shape] at sound listed
        obtain ⟨entry, member, -⟩ := entryChildren_places sound listed
        obtain ⟨⟨_, projection⟩, computed, same⟩ := mem_map.mp member
        obtain ⟨-, rfl⟩ := same
        obtain ⟨index, bound, which⟩ := count_elementEntries computed
        rcases which with rfl | ⟨rfl, bound⟩
        · have inside : index < values.length := by omega
          refine ⟨values[index], ?_, typed _ (getElem_mem inside)⟩
          simp only [Place.reach, found, Projection.select]
          exact getElem?_eq_getElem inside
        · have inside : index < values.reverse.length := by
            rw [length_reverse]
            omega
          refine ⟨values.reverse[index], ?_, typed _ (mem_reverse.mp (getElem_mem inside))⟩
          simp only [Place.reach, found, Projection.select]
          exact getElem?_eq_getElem inside
  | _ =>
    rw [found] at typed
    cases typed

/-- The places of a product are found in every product of its type. -/
theorem reached_product {definition : StructId} (shape : subject.matched.ty = .struct definition substitution)
    (typed : HasType env value.unborrowed (.struct definition substitution))
    (sound : (childSubjects env subject (.product header entries children)).isRecovered = false) :
    ∀ place ∈ (childSubjects env subject (.product header entries children)).patterns, Reached env value place := by
  intro place listed
  simp only [childSubjects, shape] at sound listed
  obtain ⟨entry, member, resolved⟩ := entryChildren_places sound listed
  obtain ⟨⟨_, field⟩, computed, same⟩ := mem_map.mp member
  simp only [Prod.mk.injEq, Option.map_eq_some_iff] at same
  obtain ⟨-, field, rfl, rfl⟩ := same
  obtain ⟨entry, -, named⟩ := mem_map.mp computed
  simp only [Prod.mk.injEq] at named
  obtain ⟨name, -, looked⟩ := Option.bind_eq_some_iff.mp named.2
  have declared : field ∈ (env.fields definition).map Prod.snd := by
    obtain ⟨before, after, split, -⟩ := lookup_eq_some_iff.mp looked
    rw [split]
    simp
  have known := fieldSubject_eq resolved
  cases found : value.unborrowed with
  | product fields values =>
    rw [found] at typed
    cases typed with
    | product role complete arity typed =>
      rw [← complete] at declared
      obtain ⟨part, selected, paired⟩ := lookup_zip arity declared
      exact ⟨part, by simpa only [Place.reach, found, Projection.select] using selected, typed _ _ _ paired known⟩
  | scalar kind =>
    rw [found] at typed
    cases typed with
    | boolean b role =>
      rw [env.boolean_fields definition role] at declared
      cases declared
    | scalar _ role plain =>
      rw [plain] at declared
      cases declared
  | _ =>
    rw [found] at typed
    cases typed

theorem payloadEntries_declared {variant : VariantId} {entry : PatternEntry} {field : FieldId} :
    ∀ {entries : List PatternEntry} {position : Nat},
      (entry, some field) ∈ payloadEntries env variant position entries →
      field ∈ (env.payloadFields variant).map PayloadField.field := by
  intro entries
  induction entries with
  | nil =>
    intro position listed
    cases listed
  | cons first rest ih =>
    intro position listed
    unfold payloadEntries at listed
    split at listed
    · exact ih listed
    split at listed
    · next found consumes selected =>
      rcases mem_cons.mp listed with same | listed
      · cases same
        unfold unionPayloadField at selected
        dsimp only at selected
        split at selected
        · obtain ⟨_, positional, same⟩ := Option.map_eq_some_iff.mp selected
          obtain ⟨payload, filtered, rfl⟩ := Option.map_eq_some_iff.mp positional
          obtain ⟨looked, -⟩ := Option.filter_eq_some_iff.mp filtered
          cases same
          exact mem_map.mpr ⟨payload, mem_of_getElem? looked, rfl⟩
        · obtain ⟨name, -, selected⟩ := Option.bind_eq_some_iff.mp selected
          obtain ⟨payload, looked, same⟩ := Option.map_eq_some_iff.mp selected
          cases same
          exact mem_map.mpr ⟨payload, mem_of_find?_eq_some looked, rfl⟩
      · exact ih listed
    · rcases mem_cons.mp listed with same | listed
      · cases same
      · exact ih listed

/-- The places of a variant are found in every value that passes its test. -/
theorem reached_variant {target : Option VariantId} {definition : UnionId}
    (shape : subject.matched.ty = .union definition substitution)
    (compatible : variantShapeIsCompatible env target entries (.union definition substitution))
    (typed : HasType env value.unborrowed (.union definition substitution))
    (passed : passesTest env holds subject (.variant header target entries children) value.unborrowed)
    (sound : (childSubjects env subject (.variant header target entries children)).isRecovered = false) :
    ∀ place ∈ (childSubjects env subject (.variant header target entries children)).patterns,
      Reached env value place := by
  cases target with
  | none => cases compatible
  | some variant =>
    intro place listed
    simp only [childSubjects, shape] at sound listed
    obtain ⟨entry, member, resolved⟩ := entryChildren_places sound listed
    obtain ⟨⟨_, field⟩, computed, same⟩ := mem_map.mp member
    simp only [Prod.mk.injEq, Option.map_eq_some_iff] at same
    obtain ⟨-, field, rfl, rfl⟩ := same
    have payloads := payloadEntries_declared computed
    have known := fieldSubject_eq resolved
    cases found : value.unborrowed with
    | union active fields values =>
      rw [found] at typed passed
      cases typed with
      | union tagged _ complete arity typed =>
        have active_eq : active = variant := by
          simpa [passesTest, shape, tagged] using passed
        subst active_eq
        rw [← complete] at payloads
        obtain ⟨part, selected, paired⟩ := lookup_zip arity payloads
        refine ⟨part, ?_, typed _ _ _ paired known⟩
        simpa only [Place.reach, found, Projection.select, if_true] using selected
    | tagless fields values =>
      rw [found] at typed
      cases typed with
      | tagless untagged declared complete arity typed =>
        have owner : env.unionOf variant = definition := by
          simp only [variantShapeIsCompatible, Option.any_some, and_eq_true, beq_iff_eq] at compatible
          exact compatible.1.1
        obtain ⟨payload, owned, rfl⟩ := mem_map.mp payloads
        obtain ⟨part, selected, paired⟩ := lookup_zip arity (complete variant owner payload owned)
        exact ⟨part, by simpa only [Place.reach, found, Projection.select] using selected, typed _ _ _ paired known⟩
    | _ =>
      rw [found] at typed
      cases typed

variable {pattern : Pattern}

theorem assess_sound {children : List PatternRefutability}
    (checked : assess env subject pattern children ≠ .recovered) : patternIsCompatible env subject pattern = true ∧
      (childSubjects env subject pattern).isRecovered = false ∧ isErrorConstant pattern = false ∧
      subject.isRecovered = false ∧ assess env subject pattern children =
        patternRefutability pattern children true (patternShapeIsTotal env subject pattern) false := by
  have recovers : ∀ flags : Bool, patternRefutability pattern children (patternIsCompatible env subject pattern)
    (patternShapeIsTotal env subject pattern) flags ≠ .recovered → flags = false := by
    intro flags unrecovered
    cases flags with
    | false => rfl
    | true =>
      refine absurd ?_ unrecovered
      cases pattern <;> rfl
  have sound := recovers _ checked
  simp only [Bool.or_eq_false_iff, Bool.not_eq_false'] at sound
  obtain ⟨⟨⟨⟨⟨⟨⟨header, outer⟩, entries⟩, inner⟩, places⟩, constant⟩, known⟩, compatible⟩ := sound
  refine ⟨compatible, places, constant, outer, ?_⟩
  simp [assess, header, outer, entries, inner, places, constant, known, compatible, Bool.or_self, Bool.not_true]

theorem refutability_eq (pattern : Pattern) (subject : Subject) : refutability env pattern subject =
    assess env subject pattern (refutabilities env pattern.children (childSubjects env subject pattern).patterns) := by
  cases pattern <;> rfl

/-- Apart from alternatives a pattern matches when its test passes and its children match. -/
theorem accepts_eq (single : ∀ header children, pattern ≠ .alternative header children)
    (subject : Subject) (value : Value) : accepts env holds pattern subject value =
      (passesTest env holds subject pattern value.unborrowed &&
        acceptsAll env holds pattern.children (childSubjects env subject pattern).patterns value) := by
  cases pattern with
  | alternative header children => exact absurd rfl (single header children)
  | nullablePresent | box | grouped =>
    simp only [accepts, Pattern.children, acceptsAll, Bool.and_true]
    rfl
  | variant | product | array | tuple => rfl
  | _ => simp only [accepts, Pattern.children, acceptsAll, Bool.and_true]

theorem refutability_recovered (pattern : Pattern) (outer : subject.isRecovered = true) :
    refutability env pattern subject = .recovered := by
  rw [refutability_eq]
  by_contra checked
  obtain ⟨-, -, -, sound, -⟩ := assess_sound checked
  rw [outer] at sound
  cases sound

/-- What holds of an irrefutable structure: the shape is total and so are the children. -/
theorem irrefutable_structure (total : refutability env pattern subject = .irrefutable) :
    patternIsCompatible env subject pattern = true ∧ (childSubjects env subject pattern).isRecovered = false ∧
      patternRefutability pattern (refutabilities env pattern.children (childSubjects env subject pattern).patterns) true
        (patternShapeIsTotal env subject pattern) false = .irrefutable := by
  rw [refutability_eq] at total
  obtain ⟨compatible, places, -, -, same⟩ := assess_sound (by rw [total]; decide)
  exact ⟨compatible, places, by rw [← same, total]⟩

theorem typed_matched {ty : Ty} (typed : HasType env value subject.ty) (shape : subject.matched.ty = ty)
    (known : ty ≠ .other) : HasType env value.unborrowed ty := by
  rw [← shape] at known ⊢
  exact typed.unborrow known

theorem typed_owned {target : Ty} (typed : HasType env value (.ownedIndirection target)) :
    ∃ part, value = .owned part ∧ HasType env part target := by
  cases typed with
  | owned typed => exact ⟨_, rfl, typed⟩

theorem typed_tuple {elements : List Ty} (typed : HasType env value (.tuple elements)) :
    ∃ values, value = .tuple values ∧ values.length = elements.length := by
  cases typed with
  | tuple arity _ => exact ⟨_, rfl, arity⟩

theorem typed_array {element : Ty} {length : Option Nat} (typed : HasType env value (.array element length)) :
    ∃ values, value = .array values ∧ ∀ known, length = some known → values.length = known := by
  cases typed with
  | array size _ => exact ⟨_, rfl, size⟩

/-- The test of a variant passes on every value of a tagless union, and of a union of this variant only. -/
theorem passes_variant {target : Option VariantId} {definition : UnionId}
    (shape : subject.matched.ty = .union definition substitution)
    (typed : HasType env value (.union definition substitution))
    (total : subject.trustedVariant = true ∧ env.isTaglessUnion definition = true ∨
      onlyUnionVariant env target (.union definition substitution) = true) :
    passesTest env holds subject (.variant header target entries children) value := by
  cases target with
  | none => simp [passesTest]
  | some variant =>
    cases typed with
    | tagless untagged => simp [passesTest, shape, untagged]
    | union tagged declared =>
      rcases total with ⟨-, untagged⟩ | only
      · simp [passesTest, shape, untagged]
      · simp only [onlyUnionVariant, Option.any_some, beq_iff_eq] at only
        rw [only, mem_singleton] at declared
        simp [passesTest, shape, declared]

/-- The children match wherever they are reached. -/
def ChildrenMatch (env : Environment) (holds : Nat → Value → Bool) (children : List Pattern) (value : Value) : Prop :=
  ∀ places, (∀ child ∈ refutabilities env children places, child = .irrefutable) →
    (∀ place ∈ places, Reached env value place) → acceptsAll env holds children places value

theorem childrenMatch_nil : ChildrenMatch env holds [] value := fun _ _ _ => rfl

theorem childrenMatch_cons {child : Pattern} {rest : List Pattern}
    (first : ∀ subject value, refutability env child subject = .irrefutable → HasType env value subject.ty →
      accepts env holds child subject value) (others : ChildrenMatch env holds rest value) :
    ChildrenMatch env holds (child :: rest) value := by
  intro places total reached
  simp only [refutabilities, mem_cons, forall_eq_or_imp] at total
  cases places with
  | nil =>
    -- A child without a place is recovered.
    have recovered := @refutability_recovered env Place.recovered.subject child rfl
    rw [show refutability env child Place.recovered.subject = .irrefutable from total.1] at recovered
    cases recovered
  | cons place places =>
    obtain ⟨part, found, typed⟩ := reached place (.head _)
    simp only [acceptsAll, head?_cons, Option.getD_some, found, Option.any_some, and_eq_true]
    exact ⟨first _ _ total.1 typed, others places total.2 fun place listed =>
      reached place (.tail _ listed)⟩

theorem accepts_of_children (pattern : Pattern) (total : refutability env pattern subject = .irrefutable)
    (typed : HasType env value subject.ty) (children : ChildrenMatch env holds pattern.children value) :
    accepts env holds pattern subject value := by
  obtain ⟨compatible, sound, assessed⟩ := irrefutable_structure total
  cases pattern with
  | binding | discard | remaining => rfl
  | error | literal | path | nullableAbsent | nullablePresent | alternative => cases assessed
  | grouped header child =>
    rw [accepts_eq (by simp), and_eq_true]
    refine ⟨rfl, children _ ?_ ?_⟩
    · simpa [patternRefutability] using assessed
    · intro place listed
      obtain ⟨_, _, rfl⟩ := mem_map.mp listed
      exact ⟨value, rfl, typed⟩
  | box header child =>
    cases shape : subject.matched.ty with
    | ownedIndirection target =>
      obtain ⟨part, found, inner⟩ := typed_owned (typed_matched typed shape (by simp))
      rw [accepts_eq (by simp), and_eq_true]
      refine ⟨by simp [passesTest, shape, found], children _ ?_ ?_⟩
      · simpa [patternRefutability] using assessed
      · intro place listed
        simp only [childSubjects, shape, mem_singleton] at listed
        subst listed
        exact ⟨part, by simp [Place.reach, found, Projection.select], inner⟩
    | _ => simp [patternIsCompatible, shape] at compatible
  | product header entries nested =>
    obtain ⟨-, inner⟩ : _ ∧ _ := by simpa [patternRefutability] using assessed
    cases shape : subject.matched.ty with
    | struct definition substitution =>
      have typed := typed_matched typed shape (by simp)
      rw [accepts_eq (by simp), and_eq_true]
      exact ⟨by simp [passesTest], children _ inner (reached_product shape typed sound)⟩
    | _ => simp [patternIsCompatible, productShapeIsCompatible, shape] at compatible
  | tuple header nested =>
    obtain ⟨-, inner⟩ : _ ∧ _ := by simpa [patternRefutability] using assessed
    cases shape : subject.matched.ty with
    | tuple elements =>
      have typed := typed_matched typed shape (by simp)
      have arity : elements.length = nested.length := by
        simpa [patternIsCompatible, shape] using compatible
      obtain ⟨values, found, size⟩ := typed_tuple typed
      rw [accepts_eq (by simp), and_eq_true]
      exact ⟨by simp [passesTest, shape, found, size], children _ inner (reached_tuple shape arity typed)⟩
    | _ => simp [patternIsCompatible, shape] at compatible
  | array header entries nested =>
    obtain ⟨shaped, inner⟩ : _ ∧ _ := by simpa [patternRefutability] using assessed
    simp only [patternIsCompatible] at compatible
    rw [accepts_eq (by simp), and_eq_true]
    cases shape : subject.matched.ty with
    | array element length =>
      have typed := typed_matched typed shape (by simp)
      rw [shape] at compatible
      refine ⟨?_, children _ inner (reached_array shape compatible typed sound)⟩
      obtain ⟨values, found, size⟩ := typed_array typed
      cases length with
      | none => cases compatible
      | some length => simp [passesTest, shape, found, size length rfl]
    | slice element =>
      -- Only the pattern that skips every element is total.
      simp only [patternShapeIsTotal, shape, and_eq_true, beq_iff_eq] at shaped
      refine ⟨by simp [passesTest, shape], children _ inner ?_⟩
      obtain ⟨entry, rfl⟩ := length_eq_one_iff.mp shaped.2.1
      have remaining : entry.isRemaining = true := by simpa using shaped.2.2
      intro place listed
      simp [childSubjects, shape, elementEntries, remaining, entryChildren] at listed
    | _ => simp [arrayShapeIsCompatible, shape] at compatible
  | variant header target entries nested =>
    obtain ⟨shaped, inner⟩ : _ ∧ _ := by simpa [patternRefutability] using assessed
    simp only [patternIsCompatible, and_eq_true] at compatible
    cases shape : subject.matched.ty with
    | union definition substitution =>
      have typed := typed_matched typed shape (by simp)
      have passed : passesTest env holds subject (.variant header target entries nested) value.unborrowed := by
        refine passes_variant shape typed ?_
        simpa [patternShapeIsTotal, shape, taglessUnion] using (Bool.and_eq_true_iff.mp shaped).2
      rw [shape] at compatible
      rw [accepts_eq (by simp), and_eq_true]
      exact ⟨passed, children _ inner (reached_variant shape compatible.1 typed passed sound)⟩
    | _ => simp [variantShapeIsCompatible, shape] at compatible

mutual
/-- **An irrefutable pattern matches every value of the type of its subject.** -/
theorem accepts_of_irrefutable : ∀ (pattern : Pattern) (subject : Subject) (value : Value),
    refutability env pattern subject = .irrefutable → HasType env value subject.ty →
      accepts env holds pattern subject value
  | .nullablePresent header child, _, _, total, typed =>
    accepts_of_children (.nullablePresent header child) total typed
      (childrenMatch_cons (accepts_of_irrefutable child) childrenMatch_nil)
  | .box header child, _, _, total, typed =>
    accepts_of_children (.box header child) total typed
      (childrenMatch_cons (accepts_of_irrefutable child) childrenMatch_nil)
  | .grouped header child, _, _, total, typed =>
    accepts_of_children (.grouped header child) total typed
      (childrenMatch_cons (accepts_of_irrefutable child) childrenMatch_nil)
  | .variant header target entries children, _, value, total, typed =>
    accepts_of_children (.variant header target entries children) total typed (childrenMatch children value)
  | .product header entries children, _, value, total, typed =>
    accepts_of_children (.product header entries children) total typed (childrenMatch children value)
  | .array header entries children, _, value, total, typed =>
    accepts_of_children (.array header entries children) total typed (childrenMatch children value)
  | .tuple header children, _, value, total, typed =>
    accepts_of_children (.tuple header children) total typed (childrenMatch children value)
  | .alternative header children, _, value, total, typed =>
    accepts_of_children (.alternative header children) total typed (childrenMatch children value)
  | .binding header, _, _, total, typed =>
    accepts_of_children (.binding header) total typed childrenMatch_nil
  | .discard header, _, _, total, typed =>
    accepts_of_children (.discard header) total typed childrenMatch_nil
  | .remaining header, _, _, total, typed =>
    accepts_of_children (.remaining header) total typed childrenMatch_nil
  | .error header, _, _, total, typed => accepts_of_children (.error header) total typed childrenMatch_nil
  | .literal header constant, _, _, total, typed =>
    accepts_of_children (.literal header constant) total typed childrenMatch_nil
  | .path header evidence, _, _, total, typed =>
    accepts_of_children (.path header evidence) total typed childrenMatch_nil
  | .nullableAbsent header, _, _, total, typed =>
    accepts_of_children (.nullableAbsent header) total typed childrenMatch_nil
theorem childrenMatch : ∀ (children : List Pattern) (value : Value), ChildrenMatch env holds children value
  | [], _ => childrenMatch_nil
  | child :: rest, value => childrenMatch_cons (accepts_of_irrefutable child) (childrenMatch rest value)
end

end Irrefutable

end Bray.Match
