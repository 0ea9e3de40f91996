/-
  File:      Bray/Fact/Reuse.lean
  Subject:   WHICH FACTS A NEW SNAPSHOT KEEPS (`FactRuntime::updated`).

  A record is invalid by itself when its key does not survive the change of namespace, when one of
  its inputs changed, or when a fact it was computed from has no record or another fingerprint
  (`directInvalidations`). Invalidity then spreads to every fact that was computed from an invalid
  one: a worklist over the reversed dependencies (`retainedRecords`).

  * `Intact` -- the record is not invalid by itself, said of one fact;
  * `mem_invalidated` -- the worklist marks what a chain of dependents leads to from an invalid
    fact;
  * `reuse_exact` -- a fact is kept exactly when every fact it was computed from, through any
    chain, is intact and has a key that survives.
-/
import Bray.Fact.Key
import Bray.Lib.Worklist

namespace Bray.Fact

open Bray.Lib List
open Relation (ReflTransGen)

/-! ## 1. The code -/

/-- The three tests of `direct_invalidations`. -/
def directlyInvalid (state : RuntimeState) (inputs : CompilationInputs)
  (identityNamespaceMatches : Bool) (key : CompilationFactKey)
  (record : FactDependencyRecord) : Bool :=
  (!identityNamespaceMatches && !key.hasStableSnapshotIdentity) ||
    (record.inputs.any fun x => inputs.lookup x.1 != some x.2) ||
    record.facts.any fun x =>
      (state.records.lookup x.1).map FactDependencyRecord.fingerprint != some x.2

def directInvalidations (state : RuntimeState) (inputs : CompilationInputs)
  (identityNamespaceMatches : Bool) : List CompilationFactKey :=
  (state.records.entries.filter fun x =>
    directlyInvalid state inputs identityNamespaceMatches x.1 x.2).map Sigma.fst

abbrev Dependents := AList fun _ : CompilationFactKey => List CompilationFactKey

/-- `dependents.entry(dependency).or_default().push(fact)` -/
def Dependents.push (dependents : Dependents) (dependency fact : CompilationFactKey) : Dependents :=
  dependents.insert dependency ((dependents.lookup dependency).getD [] ++ [fact])

def reverseDependencies (state : RuntimeState) : Dependents :=
  state.records.entries.foldl
    (fun dependents x => x.2.facts.foldl (fun dependents d => dependents.push d.1 x.1) dependents) ∅

/-- `affected`, nothing for a fact without dependents. -/
def Dependents.affected (dependents : Dependents) (fact : CompilationFactKey) :
  List CompilationFactKey :=
  (dependents.lookup fact).getD []

/-- The facts the loop of `retained_records` has invalidated when nothing is pending. Every fact
  is pending at most once, so as many turns as there are records are enough. -/
def invalidatedFacts (state : RuntimeState) (inputs : CompilationInputs)
  (identityNamespaceMatches : Bool) : List CompilationFactKey :=
  Worklist.explore (reverseDependencies state).affected state.records.entries.length
    (directInvalidations state inputs identityNamespaceMatches)
    (directInvalidations state inputs identityNamespaceMatches)

def retainedRecords (state : RuntimeState) (inputs : CompilationInputs)
  (identityNamespaceMatches : Bool) :
  (AList fun _ : CompilationFactKey => FactDependencyRecord) × List CompilationFactKey :=
  let invalidated := invalidatedFacts state inputs identityNamespaceMatches
  (⟨state.records.entries.filter fun x => x.1 ∉ invalidated,
    state.records.nodupKeys.sublist filter_sublist⟩, invalidated)

/-- The runtime of the next snapshot and the facts it takes over. -/
def FactRuntime.updated (runtime : FactRuntime) (inputs : CompilationInputs) :
  FactRuntime × List CompilationFactKey :=
  let (records, _) := retainedRecords runtime.state inputs
    (runtime.inputs.hasSameIdentityNamespace inputs)
  (⟨0, { RuntimeState.initial with records := records }, inputs⟩, records.keys)

/-! ## 2. What reuse is for -/

section Meaning

variable (records : AList fun _ : CompilationFactKey => FactDependencyRecord)

/-- `fact` was computed from `dependency`. -/
def DependsOn (fact dependency : CompilationFactKey) : Prop :=
  ∃ record, records.lookup fact = some record ∧ ∃ x ∈ record.facts, x.1 = dependency

/-- The key still names the same thing. -/
def Survives (identityNamespaceMatches : Bool) (key : CompilationFactKey) : Prop :=
  identityNamespaceMatches = true ∨ key.hasStableSnapshotIdentity = true

/-- The fact has a record, its inputs are those of the snapshot, and what it was computed from has
  the fingerprint it had then. -/
def Intact (inputs : CompilationInputs) (key : CompilationFactKey) : Prop :=
  ∃ record, records.lookup key = some record ∧ (∀ x ∈ record.inputs, inputs.lookup x.1 = some x.2) ∧
    ∀ x ∈ record.facts, ∃ other, records.lookup x.1 = some other ∧ other.fingerprint = x.2

end Meaning

/-! ## 3. The reversed dependencies -/

theorem affected_push (dependents : Dependents) (dependency fact d : CompilationFactKey) :
    (dependents.push dependency fact).affected d =
      if d = dependency then dependents.affected d ++ [fact] else dependents.affected d := by
  unfold Dependents.affected Dependents.push
  split
  · rename_i e
    subst e
    rw [AList.lookup_insert]
    rfl
  · rename_i e
    rw [AList.lookup_insert_ne e]

theorem mem_affected_facts (fact f d : CompilationFactKey)
    (facts : List (CompilationFactKey × FactFingerprint)) (dependents : Dependents) :
    f ∈ (facts.foldl (fun dependents x => dependents.push x.1 fact) dependents).affected d ↔
      f ∈ dependents.affected d ∨ f = fact ∧ ∃ x ∈ facts, x.1 = d := by
  induction facts generalizing dependents with
  | nil => simp
  | cons x facts ih =>
    rw [foldl_cons, ih, affected_push]
    by_cases e : d = x.1
    · rw [if_pos e, mem_append, mem_singleton, or_assoc]
      refine or_congr_right ?_
      constructor
      · rintro (rfl | ⟨rfl, y, hy, he⟩)
        · exact ⟨rfl, x, (.head _), e.symm⟩
        · exact ⟨rfl, y, .tail _ hy, he⟩
      · exact fun h => .inl h.1
    · rw [if_neg e]
      refine or_congr_right (and_congr_right fun _ => ?_)
      constructor
      · rintro ⟨y, hy, he⟩
        exact ⟨y, .tail _ hy, he⟩
      · rintro ⟨y, hy, he⟩
        rcases mem_cons.mp hy with rfl | hy
        · exact absurd he.symm e
        · exact ⟨y, hy, he⟩

/-- **The reversed dependencies are the dependencies reversed.** -/
theorem mem_reverseDependencies {state : RuntimeState} {fact dependency : CompilationFactKey} :
    fact ∈ (reverseDependencies state).affected dependency ↔ DependsOn state.records fact dependency := by
  -- over the entries of the table, in the order of the two loops
  have loop : ∀ (entries : List (Sigma fun _ : CompilationFactKey => FactDependencyRecord))
    (dependents : Dependents),
    fact ∈ (entries.foldl (fun dependents x =>
      x.2.facts.foldl (fun dependents d => dependents.push d.1 x.1) dependents)
      dependents).affected dependency ↔
      fact ∈ dependents.affected dependency ∨ ∃ x ∈ entries, fact = x.1 ∧ ∃ y ∈ x.2.facts, y.1 = dependency := by
    intro entries
    induction entries with
    | nil => simp
    | cons x entries ih =>
      intro dependents
      rw [foldl_cons, ih, mem_affected_facts, or_assoc]
      simp
  unfold reverseDependencies DependsOn
  rw [loop]
  constructor
  · rintro (h | ⟨⟨key, record⟩, hx, rfl, hy⟩)
    · exact nomatch h
    · exact ⟨record, AList.mem_lookup_iff.mpr hx, hy⟩
  · rintro ⟨record, hr, hy⟩
    exact .inr ⟨⟨fact, record⟩, AList.mem_lookup_iff.mp hr, rfl, hy⟩

/-! ## 4. What is invalid -/

variable {state : RuntimeState} {inputs : CompilationInputs} {same : Bool}
  {key : CompilationFactKey}

/-- The three tests fail exactly on an intact record whose key survives. -/
theorem directlyInvalid_eq_false {record : FactDependencyRecord}
    (hr : state.records.lookup key = some record) : directlyInvalid state inputs same key record = false ↔
      Survives same key ∧ Intact state.records inputs key := by
  unfold directlyInvalid
  rw [Bool.or_eq_false_iff, Bool.or_eq_false_iff, any_eq_false, any_eq_false, and_assoc]
  refine and_congr ?_ ?_
  · unfold Survives
    cases same <;> cases key.hasStableSnapshotIdentity <;> decide
  · constructor
    · rintro ⟨hi, hf⟩
      refine ⟨record, hr, fun x hx => ?_, fun x hx => ?_⟩
      · simpa using hi x hx
      · simpa using hf x hx
    · rintro ⟨record', hr', hi, hf⟩
      obtain rfl : record = record' := Option.some.inj (hr.symm.trans hr')
      refine ⟨fun x hx => ?_, fun x hx => ?_⟩
      · simpa using hi x hx
      · simpa using hf x hx

theorem mem_directInvalidations : key ∈ directInvalidations state inputs same ↔
    key ∈ state.records ∧ ¬ (Survives same key ∧ Intact state.records inputs key) := by
  unfold directInvalidations
  rw [mem_map]
  constructor
  · rintro ⟨⟨k, record⟩, hx, rfl⟩
    obtain ⟨hm, hd⟩ := mem_filter.mp hx
    have hr : state.records.lookup k = some record := AList.mem_lookup_iff.mpr hm
    refine ⟨AList.lookup_isSome.mp (by rw [hr]; rfl), fun h => ?_⟩
    rw [(directlyInvalid_eq_false hr).mpr h] at hd
    cases hd
  · rintro ⟨hk, hn⟩
    obtain ⟨record, hr⟩ := Option.isSome_iff_exists.mp (AList.lookup_isSome.mpr hk)
    refine ⟨⟨key, record⟩, mem_filter.mpr ⟨AList.mem_lookup_iff.mp hr, ?_⟩, rfl⟩
    cases hd : directlyInvalid state inputs same key record with
    | true => rfl
    | false => exact absurd ((directlyInvalid_eq_false hr).mp hd) hn

/-- As many turns as there are records are enough. -/
theorem turns_enough (state : RuntimeState) (inputs : CompilationInputs) (same : Bool) :
    (directInvalidations state inputs same).length +
      Worklist.room state.records.keys (directInvalidations state inputs same) ≤ state.records.entries.length := by
  unfold directInvalidations Worklist.room AList.keys List.keys
  generalize state.records.entries = entries
  rw [length_map, countP_map, ← countP_eq_length_filter,
    length_eq_countP_add_countP fun x => directlyInvalid state inputs same x.1 x.2]
  refine Nat.add_le_add_left (countP_mono_left fun x hx h => ?_) _
  simp only [Function.comp_apply, decide_eq_true_eq] at h ⊢
  exact fun hd => h (mem_map.mpr ⟨x, mem_filter.mpr ⟨hx, hd⟩, rfl⟩)

/-- **What the loop has invalidated**: every fact that was computed, through some chain, from one
  that is invalid by itself. -/
theorem mem_invalidatedFacts : key ∈ invalidatedFacts state inputs same ↔
    ∃ d, ReflTransGen (DependsOn state.records) key d ∧ d ∈ state.records ∧
      ¬ (Survives same d ∧ Intact state.records inputs d) := by
  have hall : ∀ x, ∀ y ∈ (reverseDependencies state).affected x, y ∈ state.records.keys := by
    intro x y hy
    obtain ⟨record, hr, _⟩ := mem_reverseDependencies.mp hy
    exact AList.lookup_isSome.mp (by rw [hr]; rfl)
  unfold invalidatedFacts
  rw [Worklist.mem_explore_iff hall (turns_enough state inputs same)]
  have flip : ∀ x, ReflTransGen (fun a b => b ∈ (reverseDependencies state).affected a) x key ↔
    ReflTransGen (DependsOn state.records) key x := by
    intro x
    rw [← Relation.reflTransGen_swap]
    refine iff_of_eq (congrFun (congrFun (congrArg ReflTransGen ?_) _) _)
    funext a b
    exact propext mem_reverseDependencies
  constructor
  · rintro ⟨x, hx, hr⟩
    exact ⟨x, (flip x).mp hr, mem_directInvalidations.mp hx⟩
  · rintro ⟨x, hr, hx⟩
    exact ⟨x, mem_directInvalidations.mpr hx, (flip x).mpr hr⟩

/-! ## 5. What is kept -/

theorem mem_updated {runtime : FactRuntime} : key ∈ (runtime.updated inputs).2 ↔ key ∈ runtime.state.records ∧
      key ∉ invalidatedFacts runtime.state inputs (runtime.inputs.hasSameIdentityNamespace inputs) := by
  constructor
  · intro h
    obtain ⟨x, hx, rfl⟩ := mem_map.mp h
    obtain ⟨hm, hi⟩ := mem_filter.mp hx
    exact ⟨mem_map_of_mem hm, by simpa using hi⟩
  · rintro ⟨h, hi⟩
    obtain ⟨x, hx, rfl⟩ := mem_map.mp h
    exact mem_map.mpr ⟨x, mem_filter.mpr ⟨hx, by simpa using hi⟩, rfl⟩

/-- The next snapshot has the records of the facts it takes over, as they were. -/
theorem lookup_updated {runtime : FactRuntime} {record : FactDependencyRecord} :
    (runtime.updated inputs).1.state.records.lookup key = some record ↔
      runtime.state.records.lookup key = some record ∧ key ∈ (runtime.updated inputs).2 := by
  have hmem : ∀ records : AList fun _ : CompilationFactKey => FactDependencyRecord,
    records.lookup key = some record ↔ ⟨key, record⟩ ∈ records.entries := fun _ =>
    AList.mem_lookup_iff
  rw [hmem, hmem, mem_updated]
  unfold FactRuntime.updated retainedRecords
  rw [mem_filter]
  constructor
  · rintro ⟨hm, hi⟩
    exact ⟨hm, mem_map.mpr ⟨_, hm, rfl⟩, by simpa using hi⟩
  · rintro ⟨hm, _, hi⟩
    exact ⟨hm, by simpa using hi⟩

/-- What a fact that is kept was computed from has a record, through any chain. -/
theorem recorded_of_chain {d : CompilationFactKey} (hk : key ∈ state.records)
    (hn : key ∉ invalidatedFacts state inputs same)
    (hr : ReflTransGen (DependsOn state.records) key d) : d ∈ state.records := by
  induction hr with
  | refl => exact hk
  | @tail c d hc hd ih =>
    have hc' : Survives same c ∧ Intact state.records inputs c := by
      by_contra h
      exact hn (mem_invalidatedFacts.mpr ⟨c, hc, ih, h⟩)
    obtain ⟨record, hr, _, hf⟩ := hc'.2
    obtain ⟨record', hr', x, hx, rfl⟩ := hd
    obtain rfl : record = record' := Option.some.inj (hr.symm.trans hr')
    obtain ⟨other, ho, _⟩ := hf x hx
    exact AList.lookup_isSome.mp (by rw [ho]; rfl)

/-- **REUSE IS EXACT.** For every table of records and every new snapshot, a fact is taken over
  exactly when it and every fact it was computed from, through any chain, has a key that survives
  the change of namespace and an intact record. So a fact that is taken over depends on no input
  that changed; and its record is taken over as it was. -/
theorem reuse_exact (runtime : FactRuntime) (inputs : CompilationInputs) :
    (∀ key, key ∈ (runtime.updated inputs).2 ↔ ∀ d, ReflTransGen (DependsOn runtime.state.records) key d →
      Survives (runtime.inputs.hasSameIdentityNamespace inputs) d ∧
        Intact runtime.state.records inputs d) ∧ (∀ key ∈ (runtime.updated inputs).2, ∀ d record,
      ReflTransGen (DependsOn runtime.state.records) key d → runtime.state.records.lookup d = some record →
      ∀ x ∈ record.inputs, inputs.lookup x.1 = some x.2) ∧
    ∀ key record, (runtime.updated inputs).1.state.records.lookup key = some record ↔
      runtime.state.records.lookup key = some record ∧ key ∈ (runtime.updated inputs).2 := by
  have exactly : ∀ key, key ∈ (runtime.updated inputs).2 ↔
    ∀ d, ReflTransGen (DependsOn runtime.state.records) key d →
      Survives (runtime.inputs.hasSameIdentityNamespace inputs) d ∧ Intact runtime.state.records inputs d := by
    intro key
    rw [mem_updated]
    constructor
    · rintro ⟨hk, hn⟩ d hr
      by_contra h
      exact hn (mem_invalidatedFacts.mpr ⟨d, hr, recorded_of_chain hk hn hr, h⟩)
    · intro h
      obtain ⟨record, hr, _⟩ := (h key .refl).2
      refine ⟨AList.lookup_isSome.mp (by rw [hr]; rfl), fun hi => ?_⟩
      obtain ⟨d, hd, _, hbad⟩ := mem_invalidatedFacts.mp hi
      exact hbad (h d hd)
  refine ⟨exactly, fun key hk d record hd hr x hx => ?_, fun _ _ => lookup_updated⟩
  obtain ⟨record', hr', hi, _⟩ := ((exactly key).mp hk d hd).2
  obtain rfl : record = record' := Option.some.inj (hr.symm.trans hr')
  exact hi x hx

/-- A syntax tree computed from a symbol query, in a snapshot with one source set. -/
def renamedRuntime : FactRuntime where
  nextTask := 0
  state := { RuntimeState.initial with
    records := (∅ : AList fun _ : CompilationFactKey => FactDependencyRecord)
      |>.insert (.symbol 0) ⟨1, [], []⟩ |>.insert .syntaxTree ⟨2, [(.symbol 0, 1)], []⟩ }
  inputs := (∅ : CompilationInputs).insert .sourceSet 3

/-- **The check of the namespace reaches dependents.** The syntax tree has a stable key, every
  recorded fingerprint is the current one, and yet it is not kept: it was computed from a symbol
  query, whose key does not survive. -/
theorem namespace_reaches_dependents :
    ¬ ∀ (runtime : FactRuntime) (inputs : CompilationInputs) (key : CompilationFactKey),
      key ∈ (runtime.updated inputs).2 ↔ Survives (runtime.inputs.hasSameIdentityNamespace inputs) key ∧
        ∀ d, ReflTransGen (DependsOn runtime.state.records) key d → Intact runtime.state.records inputs d := by
  intro h
  have hsymbol : Intact renamedRuntime.state.records (∅ : CompilationInputs) (.symbol 0) :=
    ⟨⟨1, [], []⟩, rfl, fun x hx => absurd hx not_mem_nil, fun x hx => absurd hx not_mem_nil⟩
  have htree : Intact renamedRuntime.state.records (∅ : CompilationInputs) .syntaxTree := by
    refine ⟨⟨2, [(.symbol 0, 1)], []⟩, rfl, fun x hx => absurd hx not_mem_nil, fun x hx => ?_⟩
    obtain rfl := mem_singleton.mp hx
    exact ⟨⟨1, [], []⟩, rfl, rfl⟩
  have hchain : ∀ d, ReflTransGen (DependsOn renamedRuntime.state.records) .syntaxTree d →
    d = .syntaxTree ∨ d = .symbol 0 := by
    intro d hd
    induction hd with
    | refl => exact .inl rfl
    | tail _ hstep ih =>
      obtain ⟨record, hr, x, hx, rfl⟩ := hstep
      rcases ih with rfl | rfl
      · obtain rfl := Option.some.inj hr
        exact .inr (by rw [mem_singleton.mp hx])
      · obtain rfl := Option.some.inj hr
        exact nomatch hx
  have hkept := (h renamedRuntime ∅ .syntaxTree).mpr ⟨.inr rfl, fun d hd => by
    rcases hchain d hd with rfl | rfl
    · exact htree
    · exact hsymbol⟩
  exact absurd hkept (by decide)

end Bray.Fact
