/-
  File:      Bray/Publication/Prepare.lean
  Subject:   WHAT A PUBLICATION HAS IN HAND WHEN IT RECORDS ITSELF.

  Up to the journal a publication changes only two things of the store: it replays a journal an
  earlier one left, and it adds the directory of its generation.

  * `ManagedPlan.generation`, `settledGeneration` -- the directory that is staged, and the one the
    publication ends up with;
  * `Extends` -- a store with at most one more generation;
  * `Projects`, `Ready` -- the projections, the backups and the generation of a prepared
    publication, all read off the store it starts from;
  * `prepare_spec` -- `preparePublication` ends ready, or on the way to the replayed store.
-/
import Bray.Publication.Projection
import Mathlib

namespace Bray.Publication

open Lib List

variable {Path : Type} [LinearOrder Path]

/-! ## 1. The generation -/

def ManagedPlan.generation (env : Environment Path) (plan : ManagedPlan Path) : Generation Path :=
  stagedDirectory plan.description (plan.artifacts.map (PreparedArtifact.staged env))

/-- The directory `commit_generation` ends up with: the first that is free, or an equal one found
  before it. -/
def settledGeneration (env : Environment Path) (s : Store Path) (identity : List UInt8)
  (generation : Generation Path) : Nat → Nat → Option (Generation Path)
  | 0, _ => none
  | remaining + 1, attempt =>
    match s.lookup (env.forIdentity identity attempt) with
    | none => some generation
    | some existing =>
      if existing.manifest ≠ generation.manifest then
        settledGeneration env s identity generation remaining (attempt + 1)
      else
        some existing

/-- Every artifact file of the generation is as its manifest records it. -/
def Generation.Whole (env : Environment Path) (generation : Generation Path) : Prop :=
  ∀ artifact ∈ generation.manifest.artifacts,
    validateArtifactFile env (generation.files artifact.path) artifact = .ok ()

/-- **A store with at most more generations.** -/
structure Extends (s₀ s : Store Path) : Prop where
  publicFiles : s.publicFiles = s₀.publicFiles
  journal : s.journal = s₀.journal
  reference : s.reference = s₀.reference
  lookup : ∀ locator generation, s₀.lookup locator = some generation → s.lookup locator = some generation

theorem Extends.refl (s : Store Path) : Extends s s := ⟨rfl, rfl, rfl, fun _ _ h => h⟩

theorem extends_insert {s : Store Path} {locator : List UInt8} (generation : Generation Path) :
  Extends s (s.insert locator generation) where
  publicFiles := rfl
  journal := rfl
  reference := rfl
  lookup l g h := by
    simp only [Store.lookup, Store.insert, lookup_append] at h ⊢
    simp [h]

theorem lookup_insert {s : Store Path} {locator : List UInt8} {generation : Generation Path}
    (h : s.lookup locator = none) : (s.insert locator generation).lookup locator = some generation := by
  simp only [Store.lookup, Store.insert, lookup_append] at h ⊢
  simp [h]

section

variable {env : Environment Path} {plan : ManagedPlan Path}

omit [LinearOrder Path] in
theorem validate_staged (a : PreparedArtifact Path) :
    validateArtifactFile env (some (a.staged env).file) (a.staged env).artifact = .ok () := by
  simp [validateArtifactFile, PreparedArtifact.staged, ManifestPermissions.validate, ManifestPermissions.read]

theorem plan_manifest : (plan.generation env).manifest =
    ⟨plan.description, plan.artifacts.map fun a => (a.staged env).artifact⟩ := by
  simp [ManagedPlan.generation, stagedDirectory, Function.comp_def]

/-- The staged directory holds every artifact of the plan under its relative path. -/
theorem plan_files {a : PreparedArtifact Path} (h : a ∈ plan.artifacts) :
    (plan.generation env).files a.relative = some (a.staged env).file := by
  obtain ⟨xs, ys, hsplit⟩ := append_of_mem h
  have hdistinct := plan.relative_distinct
  rw [hsplit, map_append, nodup_append] at hdistinct
  have hfind : (plan.artifacts.map (PreparedArtifact.staged env)).find?
    (fun s => s.artifact.path = a.relative) = some (a.staged env) := by
    rw [hsplit, map_append, find?_append, find?_eq_none.mpr, Option.none_or]
    · exact find?_cons_of_pos (by simp [PreparedArtifact.staged])
    · intro s hs
      obtain ⟨b, hb, rfl⟩ := mem_map.mp hs
      have hne := hdistinct.2.2 b.relative (mem_map_of_mem hb) a.relative (by simp)
      exact fun heq => hne (of_decide_eq_true heq)
  simp only [ManagedPlan.generation, stagedDirectory, hfind, Option.map_some]

theorem plan_whole : (plan.generation env).Whole env := by
  intro artifact h
  rw [plan_manifest] at h
  obtain ⟨a, ha, rfl⟩ := mem_map.mp h
  have hfile : (plan.generation env).files a.relative = some (a.staged env).file := plan_files ha
  simp only [PreparedArtifact.staged] at hfile ⊢
  rw [hfile]
  exact validate_staged a

end

/-! ## 2. Committing it -/

/-- The steps from the journal's rename on: what fails there is rolled back. -/
def Step.IsRecorded : Step → Prop
  | .journalFlush | .promotePoll _ | .promote _ | .projectionFlush | .referenceCreate
  | .referenceWrite | .referenceFinish | .referencePoll | .referencePromote => True
  | _ => False

/-- The steps from the journal's rename on whose failure is not rolled back. -/
def Step.IsUnprotected : Step → Prop
  | .encodeReference | .lease => True
  | _ => False

/-- The steps before the journal's rename. -/
def Step.IsEarly (step : Step) : Prop := ¬ step.IsRecorded ∧ ¬ step.IsUnprotected

section Spec

variable {env : Environment Path} {plan : ManagedPlan Path} {fate : Step → Fate Cause}
  {s₀ : Store Path} {α Error Error' : Type} {P : Store Path → Prop}

section

variable {step : Step} {E : Step → Store Path → Prop} {C : Store Path → Prop}
variable (hE : ∀ s, P s → E step s) (hC : ∀ s, P s → C s)
include hE hC

omit [LinearOrder Path] in
/-- **The rule of a step that changes nothing**, for ends that only need what held before it. -/
theorem meets_quiet {onFailure : Cause → Error} : Meets fate P (.check step onFailure : Operation Path Error Unit)
      ⟨fun _ => P, fun step _ => E step, C⟩ :=
  meets_check (fun s _ hs _ => hE s hs) fun s hs _ => hC s hs

theorem meets_quietPoll {cancelled : Error} :
    Meets fate P (checkCancelled step cancelled : Operation Path Error Unit)
      ⟨fun _ => P, fun step _ => E step, C⟩ :=
  meets_checkCancelled (fun s hs _ => hE s hs) fun s hs _ => hC s hs

end

omit [LinearOrder Path] in
/-- The name of an error does not matter to ends that do not speak of it. -/
theorem meets_renamed {f : Error → Error'} {m : Operation Path Error α} {R : α → Store Path → Prop}
    {E : Step → Store Path → Prop} {C : Store Path → Prop} (hm : Meets fate P m ⟨R, fun step _ => E step, C⟩) :
    Meets fate P (.mapError f m) ⟨R, fun step _ => E step, C⟩ :=
  meets_mapError hm fun _ _ _ h => h

/-- An early failure leaves the store of `P`. -/
def EndsEarly (P : Store Path → Prop) (step : Step) (s : Store Path) : Prop :=
  step.IsEarly ∧ P s

theorem stageGeneration_spec : Meets fate P (stageGeneration env plan)
    ⟨fun generation s => generation = plan.generation env ∧ P s, fun step _ => EndsEarly P step, P⟩ := by
  refine meets_bind (R := fun staged s =>
    staged = plan.artifacts.map (PreparedArtifact.staged env) ∧ P s) ?_ fun staged => ?_
  · refine (meets_collectFrom (r := fun a b => b = a.staged env) (fun round a => ?_) 0 _).weaken
      (fun _ hs => hs) (fun staged s hd => ⟨?_, hd.2⟩) (fun _ _ _ hf => hf) fun _ hc => hc
    · refine meets_bind (meets_quietPoll (fun s hs => ⟨⟨id, id⟩, hs⟩) fun s hs => hs) fun _ => ?_
      refine meets_bind (meets_quiet (fun s hs => ⟨⟨id, id⟩, hs⟩) fun s hs => hs) fun _ => ?_
      exact fun s hs => ⟨rfl, hs⟩
    · have hmap := forall₂_map_left_iff.mpr (hd.1.imp fun a b h => h.symm)
      rw [forall₂_eq_eq_eq] at hmap
      exact hmap.symm
  · refine meets_bind (meets_quiet (fun s hs => ⟨⟨id, id⟩, hs.2⟩) fun s hs => hs.2) fun _ => ?_
    intro s hs
    exact ⟨hs.1 ▸ rfl, hs.2⟩

/-- Validating the files of a directory that is already there. -/
theorem validateExisting_spec {attempt : Nat} {locator : List UInt8} {generation : Generation Path}
    {manifest : GenerationManifest Path} (hlook : s₀.lookup locator = some generation) :
    Meets fate (fun s => s = s₀) (validateExistingGeneration env attempt locator manifest)
      ⟨fun _ s => s = s₀ ∧ ∀ artifact ∈ manifest.artifacts,
         validateArtifactFile env (generation.files artifact.path) artifact = .ok (),
        fun step _ => EndsEarly (fun s => s = s₀) step, fun s => s = s₀⟩ := by
  have hearly : (Step.generationValidate attempt).IsEarly := ⟨id, id⟩
  refine meets_renamed (meets_act (fun s a s' hs he => ?_) (fun s e hs _ => ⟨hearly, hs⟩)
    (fun s _ hs _ => ⟨hearly, hs⟩) fun s hs _ => hs)
  subst hs
  obtain ⟨_, hall, he⟩ := except_bind_eq_ok.mp he
  cases he
  refine ⟨rfl, fun artifact hmem => ?_⟩
  have hone := except_forM_eq_ok.mp hall artifact hmem
  simpa [Store.stored, hlook] using hone

/-- **The committed directory** is the settled one, with the given manifest and whole. Induction on
  the attempts that are left. -/
theorem commitGenerationFrom_spec {identity : List UInt8} {generation : Generation Path}
    (hwhole : generation.Whole env) (remaining attempt : Nat) :
    Meets fate (fun s => s = s₀) (commitGenerationFrom env identity generation remaining attempt)
      ⟨fun locator s => Extends s₀ s ∧ ∃ settled, s.lookup locator = some settled ∧
         settledGeneration env s₀ identity generation remaining attempt = some settled ∧
         settled.manifest = generation.manifest ∧ settled.Whole env,
        fun step _ => EndsEarly (Extends s₀) step, Extends s₀⟩ := by
  have hsame : ∀ s, s = s₀ → Extends s₀ s := fun s hs => hs ▸ .refl s₀
  induction remaining generalizing attempt with
  | zero =>
    exact fun s hs => ⟨⟨id, id⟩, hsame s hs⟩
  | succ remaining ih =>
    refine meets_bind (R := fun existing s => s = s₀ ∧
      existing = s₀.lookup (env.forIdentity identity attempt)) ?_ fun existing => ?_
    · exact meets_read fun s hs => ⟨hs, hs ▸ rfl⟩
    refine meets_of_start fun s hs => ?_
    obtain ⟨hs, rfl⟩ := hs
    subst hs
    match hlook : s.lookup (env.forIdentity identity attempt) with
    | none =>
      have hsettled : settledGeneration env s identity generation (remaining + 1) attempt =
        some generation := by simp [settledGeneration, hlook]
      refine meets_bind (R := fun _ s' =>
        s' = s.insert (env.forIdentity identity attempt) generation) ?_ fun _ => ?_
      · exact meets_write (fun s' hs => hs ▸ rfl) (fun s' _ hs _ => ⟨⟨id, id⟩, hsame s' hs⟩)
          fun s' hs _ => hsame s' hs
      refine meets_bind (meets_quiet (fun s' hs => ⟨⟨id, id⟩, hs ▸ extends_insert _⟩)
        fun s' hs => hs ▸ extends_insert _) fun _ => ?_
      intro s' hs
      subst hs
      exact ⟨extends_insert _, generation, lookup_insert hlook, hsettled, rfl, hwhole⟩
    | some existing =>
      refine meets_bind (R := fun _ s' => s' = s) (meets_renamed (meets_quiet (fun s' hs => ⟨⟨id, id⟩, hsame s' hs⟩) hsame))
        fun _ => ?_
      by_cases hmanifest : existing.manifest ≠ generation.manifest
      · simp only [if_pos hmanifest, settledGeneration, hlook]
        exact ih (attempt + 1)
      · simp only [if_neg hmanifest, settledGeneration, hlook]
        rw [not_not] at hmanifest
        refine meets_bind (R := fun _ s' => s' = s ∧ ∀ artifact ∈ generation.manifest.artifacts,
          validateArtifactFile env (existing.files artifact.path) artifact = .ok ()) ?_ fun _ => ?_
        · exact (validateExisting_spec hlook).weaken (fun _ he => he) (fun _ _ hd => hd)
            (fun _ _ s' hf => ⟨hf.1, hsame s' hf.2⟩) hsame
        · intro s' hs
          obtain ⟨rfl, hvalid⟩ := hs
          exact ⟨.refl _, existing, hlook, rfl, hmanifest, fun a ha => hvalid a (hmanifest ▸ ha)⟩

/-! ## 3. The projections -/

/-- The projection of one artifact, read off the store. -/
structure Projects (s : Store Path) (locator : List UInt8) (replacement : ReplacementPolicy)
  (a : PreparedArtifact Path) (c : PreparedPublicProjection Path) : Prop where
  destination : c.destination = a.published
  backup : c.backup = s.backup a.published
  staged : ∃ file, s.stored locator a.relative = some file ∧ c.staged = some ⟨file,
      if replacementMode replacement = .replaceExisting then
        (s.publicFiles a.published).map File.permissions
      else none,
      replacementMode replacement⟩
  absent : replacement = .requireAbsent → s.publicFiles a.published = none

def Store.staleProjection (s : Store Path) (p : Path) : Option (PreparedPublicProjection Path) :=
  (s.backup p).map fun backup => ⟨p, none, some backup⟩

theorem preparePublicBackup_spec {step : Step} (hearly : step.IsEarly) (p : Path) :
    Meets fate (fun s => s = s₀) (preparePublicBackup step p) ⟨fun backup s => backup = s₀.backup p ∧ s = s₀,
        fun step _ => EndsEarly (fun s => s = s₀) step, fun s => s = s₀⟩ := by
  refine meets_bind (R := fun present s =>
    present = (s₀.publicFiles p).isSome ∧ s = s₀) (meets_read fun s hs => ⟨hs ▸ rfl, hs⟩)
    fun present => ?_
  refine meets_of_start fun s hs => ?_
  obtain ⟨rfl, rfl⟩ := hs
  match hfile : s.publicFiles p with
  | none =>
    intro s' hs'
    exact ⟨by simp [Store.backup, hfile], hs'⟩
  | some file =>
    refine meets_bind (R := fun backup s' => some backup = s.backup p ∧ s' = s)
      (meets_renamed (meets_stageOwnedCopy (fun s' file' hs hsource => ?_)
        (fun s' e hs hnone => ?_) (fun s' e hs _ => ⟨hearly, hs⟩) fun s' hs _ => hs)) fun backup => ?_
    · subst hs
      rw [hfile] at hsource
      cases hsource
      simp [Store.backup, hfile]
    · subst hs
      rw [hfile] at hnone
      cases hnone
    · exact fun s' hs => hs

theorem prepareProjection_spec {locator : List UInt8} {replacement : ReplacementPolicy}
    (round : Nat) (a : PreparedArtifact Path) :
    Meets fate (fun s => s = s₀) (prepareProjection locator replacement round a)
      ⟨fun c s => Projects s₀ locator replacement a c ∧ s = s₀,
        fun step _ => EndsEarly (fun s => s = s₀) step, fun s => s = s₀⟩ := by
  refine meets_bind (meets_quietPoll (fun s hs => ⟨⟨id, id⟩, hs⟩) fun s hs => hs) fun _ => ?_
  refine meets_bind (R := fun present s =>
    present = (s₀.publicFiles a.published).isSome ∧ s = s₀) (meets_read fun s hs => ⟨hs ▸ rfl, hs⟩)
    fun present => ?_
  refine meets_of_start fun s hs => ?_
  obtain ⟨rfl, rfl⟩ := hs
  by_cases hrefused : replacement = .requireAbsent ∧ (s.publicFiles a.published).isSome
  · rw [if_pos (by simpa using hrefused)]
    exact fun s' hs => ⟨⟨id, id⟩, hs⟩
  · rw [if_neg (by simpa using hrefused)]
    refine meets_bind (preparePublicBackup_spec ⟨id, id⟩ _) fun backup => ?_
    refine meets_bind (R := fun staged s' => (backup = s.backup a.published ∧ s' = s) ∧
      ∃ file, s.stored locator a.relative = some file ∧ staged = ⟨file,
        if replacementMode replacement = .replaceExisting then
          (s.publicFiles a.published).map File.permissions else none,
        replacementMode replacement⟩) ?_ fun staged => ?_
    · refine meets_renamed (meets_stageOwnedCopy (fun s' file hs hsource => ⟨hs, ?_⟩)
        (fun s' e hs _ => ⟨⟨id, id⟩, hs.2⟩) (fun s' e hs _ => ⟨⟨id, id⟩, hs.2⟩) fun s' hs _ => hs.2)
      obtain ⟨_, rfl⟩ := hs
      exact ⟨file, hsource, rfl⟩
    · intro s' hs
      obtain ⟨⟨hbackup, hs'⟩, file, hstored, hstaged⟩ := hs
      refine ⟨⟨rfl, hbackup, ⟨file, hstored, by rw [hstaged]⟩, fun habsent => ?_⟩, hs'⟩
      simpa [habsent] using hrefused

theorem prepareProjections_spec {locator : List UInt8} {prepared : List (PreparedArtifact Path)}
    {stale : Finset Path} {replacement : ReplacementPolicy} :
    Meets fate (fun s => s = s₀) (preparePublicProjections locator prepared stale replacement)
      ⟨fun projections s => (∃ artifacts, List.Forall₂ (Projects s₀ locator replacement) prepared artifacts ∧
         projections = artifacts ++ (stale.sort (· ≤ ·)).filterMap s₀.staleProjection) ∧ s = s₀,
        fun step _ => EndsEarly (fun s => s = s₀) step, fun s => s = s₀⟩ := by
  refine meets_bind (meets_collectFrom prepareProjection_spec 0 prepared) fun artifacts => ?_
  refine meets_of_start fun s hs => ?_
  obtain ⟨hartifacts, rfl⟩ := hs
  refine meets_bind (R := fun projections s' =>
    projections = (stale.sort (· ≤ ·)).map s.staleProjection ∧ s' = s) ?_ fun projections => ?_
  · refine (meets_collectFrom (r := fun p c => c = s.staleProjection p) (fun round p => ?_) 0
      _).weaken (fun _ he => he) (fun cs s' hd => ⟨?_, hd.2⟩) (fun _ _ _ hf => hf) fun _ hc => hc
    · refine meets_bind (preparePublicBackup_spec ⟨id, id⟩ p) fun backup => ?_
      intro s' hs
      exact ⟨by rw [hs.1]; rfl, hs.2⟩
    · have hmap := forall₂_map_left_iff.mpr (hd.1.imp fun a b h => h.symm)
      rw [forall₂_eq_eq_eq] at hmap
      exact hmap.symm
  · intro s' hs
    refine ⟨⟨artifacts, hartifacts, ?_⟩, hs.2⟩
    rw [hs.1, List.reduceOption, filterMap_map]
    rfl

/-! ## 4. The whole preparation -/

/-- **A prepared publication**, read off the store it starts from. -/
structure Ready (env : Environment Path) (plan : ManagedPlan Path) (replacement : ReplacementPolicy)
  (ready : PreparedPublication Path) (s : Store Path) : Prop where
  journal : s.journal = none
  reference : ready.priorReference = s.reference
  manifest : ready.manifest = (plan.generation env).manifest
  identity : ready.identity = env.manifestDigest ready.manifest
  generation : ∃ settled, s.lookup ready.locator = some settled ∧
    settled.manifest = ready.manifest ∧ settled.Whole env
  projections : ∃ artifacts, List.Forall₂ (Projects s ready.locator replacement) plan.artifacts artifacts ∧
    ready.projections = artifacts ++
      ((s.currentPaths \ ready.manifest.publicPaths).sort (· ≤ ·)).filterMap s.staleProjection

/-- The locator leads to the settled generation. -/
def Settles (env : Environment Path) (plan : ManagedPlan Path) (s₀ : Store Path)
  (ready : PreparedPublication Path) (s : Store Path) : Prop :=
  settledGeneration env s₀ (env.manifestDigest (plan.generation env).manifest)
    (plan.generation env) LOCATOR_ATTEMPTS 0 = s.lookup ready.locator

/-- What an early end of a publication leaves. -/
def Untouched (env : Environment Path) (s₀ s : Store Path) : Prop :=
  OnTheWay env s₀ s ∨ Extends s₀.restored s

theorem settledGeneration_congr {s : Store Path} {identity : List UInt8}
    {generation : Generation Path} (h : s.generations = s₀.generations) (remaining attempt : Nat) :
    settledGeneration env s identity generation remaining attempt =
      settledGeneration env s₀ identity generation remaining attempt := by
  induction remaining generalizing attempt with
  | zero => rfl
  | succ remaining ih => simp [settledGeneration, Store.lookup, h, ih]

/-- Where the reference names a generation whose manifest can be read, its paths are the current
  ones, also after another generation was added. -/
theorem currentPaths_of_manifest {s s₁ : Store Path} {reference : GenerationReference}
    {manifest : GenerationManifest Path} (href : s.reference = some reference)
    (hmanifest : s.manifest env reference.current = .ok manifest) (hext : Extends s s₁) :
    s₁.currentPaths = manifest.publicPaths := by
  obtain ⟨generation, hlook, rfl, _⟩ := manifest_ok hmanifest
  have hcur := Store.current_eq (hext.reference.trans href) (hext.lookup _ _ hlook)
  simp [Store.currentPaths, hcur]

/-- **A publication that reaches the journal is ready**; one that ends before has replayed a pending
  journal, in part or whole, and added at most its own generation. -/
theorem prepare_spec {replacement : ReplacementPolicy} :
    Meets fate (fun s => s = s₀) (preparePublication env plan replacement)
      ⟨fun ready s => Extends s₀.restored s ∧ Ready env plan replacement ready s ∧ Settles env plan s₀ ready s,
        fun step _ => EndsEarly (Untouched env s₀) step, Untouched env s₀⟩ := by
  have hstart : ∀ s, s = s₀ → Untouched env s₀ s := fun s hs => .inl (.inr (.inr hs))
  have hext : ∀ s, Extends s₀.restored s → Untouched env s₀ s := fun s hs => .inr hs
  have hsame : ∀ s, s = s₀.restored → Untouched env s₀ s := fun s hs => .inr (hs ▸ .refl _)
  simp only [preparePublication]
  split
  · exact fun s hs => ⟨⟨id, id⟩, hstart s hs⟩
  refine meets_bind (meets_quietPoll (fun s hs => ⟨⟨id, id⟩, hstart s hs⟩) hstart) fun _ => ?_
  refine meets_bind (meets_renamed (meets_quiet (fun s hs => ⟨⟨id, id⟩, hstart s hs⟩) hstart))
    fun _ => ?_
  refine meets_bind (meets_renamed (meets_quiet (fun s hs => ⟨⟨id, id⟩, hstart s hs⟩) hstart))
    fun _ => ?_
  refine meets_bind (R := fun _ s => s = s₀.restored) ?_ fun _ => ?_
  · refine meets_renamed ((recover_spec s₀).weaken (fun _ he => he) (fun _ _ hd => hd.1)
      (fun step _ s hf => ⟨?_, .inl hf.2.1⟩) fun _ hc => .inl hc.1)
    match step with
    | .recovery _ => exact ⟨id, id⟩
  refine meets_bind (R := fun reference s => s = s₀.restored ∧ reference = s₀.restored.reference)
    ?_ fun reference => ?_
  · refine meets_renamed (meets_act (fun s a s' hs he => ?_)
      (fun s e hs _ => ⟨⟨id, id⟩, hsame s hs⟩) (fun s _ hs _ => ⟨⟨id, id⟩, hsame s hs⟩)
      fun s hs _ => hsame s hs)
    split at he
    · rename_i href
      cases he
      exact ⟨hs, hs ▸ href.symm⟩
    · rename_i href
      obtain ⟨_, _, he⟩ := except_bind_eq_ok.mp he
      cases he
      exact ⟨hs, hs ▸ href.symm⟩
  refine meets_bind (R := fun preceding s => (s = s₀.restored ∧ reference = s₀.restored.reference) ∧
    ∀ s₁, Extends s₀.restored s₁ → s₁.currentPaths = preceding) ?_ fun preceding => ?_
  · refine meets_of_start fun s hs => ?_
    obtain ⟨rfl, rfl⟩ := hs
    match href : s₀.restored.reference with
    | none =>
      intro s hs
      refine ⟨⟨hs, rfl⟩, fun s₁ h => ?_⟩
      rw [Store.currentPaths, Store.current, h.reference, href]
      rfl
    | some reference =>
      refine meets_bind (R := fun manifest s => s = s₀.restored ∧
        s₀.restored.manifest env reference.current = .ok manifest) (meets_renamed ?_)
        fun manifest => ?_
      · refine meets_act (fun s a s' hs he => ?_) (fun s e hs _ => ⟨⟨id, id⟩, hsame s hs⟩)
          (fun s _ hs _ => ⟨⟨id, id⟩, hsame s hs⟩) fun s hs _ => hsame s hs
        obtain ⟨_, hmanifest, he⟩ := except_bind_eq_ok.mp he
        cases he
        exact ⟨hs, hs ▸ hmanifest⟩
      · exact fun s hs => ⟨⟨hs.1, rfl⟩, fun s₁ h => currentPaths_of_manifest href hs.2 h⟩
  refine meets_of_start fun s hs => ?_
  obtain ⟨⟨rfl, rfl⟩, hpreceding⟩ := hs
  refine meets_bind (meets_quiet (fun s hs => ⟨⟨id, id⟩, hsame s hs⟩) hsame) fun _ => ?_
  refine meets_bind (R := fun generation s => generation = plan.generation env ∧ s = s₀.restored)
    (stageGeneration_spec.weaken (fun _ he => he) (fun _ _ hd => hd)
      (fun _ _ s hf => ⟨hf.1, hsame s hf.2⟩) hsame) fun generation => ?_
  refine meets_of_start fun s hs => ?_
  obtain ⟨rfl, rfl⟩ := hs
  refine meets_bind (meets_renamed (meets_quiet (fun s hs => ⟨⟨id, id⟩, hsame s hs⟩) hsame))
    fun _ => ?_
  refine meets_bind (meets_quiet (fun s hs => ⟨⟨id, id⟩, hsame s hs⟩) hsame) fun _ => ?_
  refine meets_bind (meets_quiet (fun s hs => ⟨⟨id, id⟩, hsame s hs⟩) hsame) fun _ => ?_
  refine meets_bind (meets_quiet (fun s hs => ⟨⟨id, id⟩, hsame s hs⟩) hsame) fun _ => ?_
  refine meets_bind (meets_quietPoll (fun s hs => ⟨⟨id, id⟩, hsame s hs⟩) hsame) fun _ => ?_
  refine meets_bind ((commitGenerationFrom_spec plan_whole LOCATOR_ATTEMPTS 0).weaken
    (fun _ he => he) (fun _ _ hd => hd) (fun _ _ s hf => ⟨hf.1, hext s hf.2⟩) hext) fun locator => ?_
  refine meets_of_start fun s hs => ?_
  obtain ⟨hextends, settled, hlook, hsettled, hmanifest, hwhole⟩ := hs
  have hsame' : ∀ s', s' = s → Untouched env s₀ s' := fun s' hs => hext s' (hs ▸ hextends)
  refine meets_bind (meets_quietPoll (fun s' hs => ⟨⟨id, id⟩, hsame' s' hs⟩) hsame') fun _ => ?_
  refine meets_bind (prepareProjections_spec.weaken (fun _ he => he) (fun _ _ hd => hd)
    (fun _ _ s' hf => ⟨hf.1, hsame' s' hf.2⟩) hsame') fun projections => ?_
  refine meets_bind (meets_renamed (meets_quiet (fun s' hs => ⟨⟨id, id⟩, hsame' s' hs.2⟩)
    fun s' hs => hsame' s' hs.2)) fun _ => ?_
  intro s' hs
  obtain ⟨hprojections, rfl⟩ := hs
  refine ⟨hextends, ⟨hextends.journal.trans (restored_journal s₀), hextends.reference.symm, rfl, rfl,
    ⟨settled, hlook, hmanifest, hwhole⟩, ?_⟩, ?_⟩
  · rw [hpreceding s' hextends]
    exact hprojections
  · simp only [Settles, hlook, ← hsettled]
    exact (settledGeneration_congr (restored_generations s₀) _ _).symm

end Spec

end Bray.Publication
