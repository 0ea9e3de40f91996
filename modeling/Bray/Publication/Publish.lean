/-
  File:      Bray/Publication/Publish.lean
  Subject:   PUBLISHING A GENERATION (publication/generation/transaction.rs, projection.rs,
    cleanup.rs).

  A publication replays a pending journal, commits the new generation directory, prepares a staged
  copy and a backup of every public path, writes the journal, promotes the staged files and removes
  the stale ones, and renames the new reference into place. What fails between the first promotion
  and the reference is to roll the public files back.

  * `stageGeneration`, `commitGeneration` -- the private directory and its locator;
  * `preparePublicProjections`, `commitPublicProjections`, `rollbackPublicProjections`;
  * `commitReference`, `retainRecentGenerations`;
  * `preparePublication`, `publishPrepared` -- `publish_managed_generation` up to
    `record_publication` and from it on; `publishManagedGeneration` is the two in sequence.
-/
import Bray.Publication.Recover

namespace Bray.Publication

open Lib

variable {Path : Type} [LinearOrder Path]

/-! ## 1. The private generation -/

inductive ReplacementPolicy where
  | requireAbsent
  | replaceExisting
deriving DecidableEq

def replacementMode : ReplacementPolicy → FileReplacementMode
  | .requireAbsent => .requireAbsent
  | .replaceExisting => .replaceExisting

/-- One planned artifact of the managed file system with its content. -/
structure PreparedArtifact (Path : Type) where
  kind : ArtifactKind
  ordinal : Nat
  relative : Path
  published : Path
  bytes : List UInt8
  /-- Requirement, role and producer. -/
  record : String

/-- The managed artifacts of one emission plan. Planning refuses a second artifact of one identity
  and a second one of one output path. -/
structure ManagedPlan (Path : Type) where
  /-- Revision, product, context and build identity of the manifest. -/
  description : String
  artifacts : List (PreparedArtifact Path)
  identity_distinct : (artifacts.map fun a => (a.kind, a.ordinal)).Nodup
  relative_distinct : (artifacts.map PreparedArtifact.relative).Nodup
  published_distinct : (artifacts.map PreparedArtifact.published).Nodup

/-- A staged artifact: its entry in the manifest and its file in the private directory. -/
structure StagedArtifact (Path : Type) where
  artifact : ManifestArtifact Path
  file : File

/-- `write_artifact` and `ManifestArtifact::new`, as values; the digest is always the canonical
  one. -/
def PreparedArtifact.staged (env : Environment Path) (prepared : PreparedArtifact Path) :
  StagedArtifact Path :=
  let file := File.mk prepared.bytes ⟨some (artifactMode prepared.kind), false⟩
  { artifact :=
    { kind := prepared.kind
      ordinal := prepared.ordinal
      path := prepared.relative
      publishedPath := prepared.published
      byteLen := prepared.bytes.length
      digestAlgorithm := .blake3
      digest := env.contentDigest .blake3 prepared.bytes
      permissions := ManifestPermissions.read file prepared.kind
      record := prepared.record }
    file := file }

def stageArtifact (env : Environment Path) (round : Nat) (prepared : PreparedArtifact Path) :
  Operation Path ArtifactPublicationFailure (StagedArtifact Path) := do
  checkCancelled (.stagePoll round) .cancelled
  .check (.stageArtifact round) (artifactFailure .write)
  pure (prepared.staged env)

/-- The private directory that holds the staged artifacts. -/
def stagedDirectory (description : String) (staged : List (StagedArtifact Path)) :
  Generation Path where
  manifest := ⟨description, staged.map StagedArtifact.artifact⟩
  files := fun path => (staged.find? fun s => s.artifact.path = path).map StagedArtifact.file

/-- `stage_generation`. -/
def stageGeneration (env : Environment Path) (plan : ManagedPlan Path) :
  Operation Path ArtifactPublicationFailure (Generation Path) := do
  let staged ← Program.collectFrom (stageArtifact env) 0 plan.artifacts
  .check .stageFlush (artifactFailure .flush)
  pure (stagedDirectory plan.description staged)

/-- `validate_existing_generation`. -/
def validateExistingGeneration (env : Environment Path) (attempt : Nat) (locator : List UInt8)
  (manifest : GenerationManifest Path) : Operation Path ArtifactPublicationFailure Unit :=
  .mapError storageFailure <| .act (.generationValidate attempt) (.of .read) fun s => do
    manifest.artifacts.forM fun artifact =>
      validateArtifactFile env (s.stored locator artifact.path) artifact
    .ok ((), s)

def LOCATOR_ATTEMPTS : Nat := 256

/-- The error of the exclusive rename in `commit_generation`. -/
def generationRenameFailure : Cause → ArtifactPublicationFailure
  | .io .unsupported => .failed .managedPublicationUnsupported
  | cause => artifactFailure .commit cause

/-- The loop of `commit_generation` with `remaining` attempts left. -/
def commitGenerationFrom (env : Environment Path) (identity : List UInt8)
  (generation : Generation Path) :
  Nat → Nat → Operation Path ArtifactPublicationFailure (List UInt8)
  | 0, attempt => .refuse (.generationRename attempt) (.failed .generationCollision)
  | remaining + 1, attempt => do
    let locator := env.forIdentity identity attempt
    let existing ← Program.read fun s => s.lookup locator
    match existing with
    | none => do
      .write (.generationRename attempt) generationRenameFailure fun s =>
        s.insert locator generation
      .check .generationFlush (artifactFailure .commit)
      pure locator
    | some existing => do
      .mapError storageFailure (.check (.generationRead attempt) (.of .read))
      if existing.manifest ≠ generation.manifest then
        commitGenerationFrom env identity generation remaining (attempt + 1)
      else do
        validateExistingGeneration env attempt locator generation.manifest
        pure locator

def commitGeneration (env : Environment Path) (identity : List UInt8)
  (generation : Generation Path) : Operation Path ArtifactPublicationFailure (List UInt8) :=
  commitGenerationFrom env identity generation LOCATOR_ATTEMPTS 0

/-! ## 2. The public projections -/

structure PreparedPublicProjection (Path : Type) where
  destination : Path
  staged : Option CompletedStagedFile
  backup : Option CompletedStagedFile

structure CommittedPublicProjection (Path : Type) where
  destination : Path
  backup : Option CompletedStagedFile

/-- `prepare_public_backup`; a copying error is a storage failure. -/
def preparePublicBackup (step : Step) (destination : Path) :
  Operation Path ArtifactPublicationFailure (Option CompletedStagedFile) := do
  let present ← Program.read fun s => (s.publicFiles destination).isSome
  if present then do
    let backup ← .mapError storageFailure <|
      stageOwnedCopy step (fun s => s.publicFiles destination) destination .replaceExisting
    pure (some backup)
  else
    pure none

/-- One round of the first loop of `prepare_public_projections`. -/
def prepareProjection (locator : List UInt8) (replacement : ReplacementPolicy) (round : Nat)
  (prepared : PreparedArtifact Path) :
  Operation Path ArtifactPublicationFailure (PreparedPublicProjection Path) := do
  checkCancelled (.preparePoll round) .cancelled
  let present ← Program.read fun s => (s.publicFiles prepared.published).isSome
  if replacement = .requireAbsent ∧ present then
    Program.refuse (.requireAbsent round) (.failed (.commit .alreadyExists))
  else do
    let backup ← preparePublicBackup (.backup round) prepared.published
    let staged ← .mapError storageFailure <|
      stageOwnedCopy (.stageProjection round) (fun s => s.stored locator prepared.relative)
        prepared.published (replacementMode replacement)
    pure ⟨prepared.published, some staged, backup⟩

/-- One round of its second loop; an absent stale path needs no projection. -/
def prepareStale (round : Nat) (destination : Path) :
  Operation Path ArtifactPublicationFailure (Option (PreparedPublicProjection Path)) := do
  let backup ← preparePublicBackup (.staleBackup round) destination
  pure (backup.map fun backup => ⟨destination, none, some backup⟩)

def preparePublicProjections (locator : List UInt8) (prepared : List (PreparedArtifact Path))
  (stalePaths : Finset Path) (replacement : ReplacementPolicy) :
  Operation Path ArtifactPublicationFailure (List (PreparedPublicProjection Path)) := do
  let projections ← Program.collectFrom (prepareProjection locator replacement) 0 prepared
  let stale ← Program.collectFrom prepareStale 0 (stalePaths.sort (· ≤ ·))
  pure (projections ++ stale.reduceOption)

/-- One round of the loop of `rollback_public_projections`. -/
def rollbackProjection (round : Nat) (projection : CommittedPublicProjection Path) :
  Operation Path ArtifactPublicationFailure Unit :=
  match projection.backup with
  | some backup => promote (.rollback round) (artifactFailure .commit) backup projection.destination
  | none => .write (.rollback round) (artifactFailure .commit) fun s => s.remove projection.destination

def rollbackPublicProjections (projections : List (CommittedPublicProjection Path)) :
  Operation Path ArtifactPublicationFailure Unit := do
  Program.eachFrom rollbackProjection 0 projections.reverse
  .check .rollbackFlush (artifactFailure .flush)

/-- The change of one public path. -/
def promoteProjection (round : Nat) (projection : PreparedPublicProjection Path) :
  Operation Path ArtifactPublicationFailure Unit :=
  match projection.staged with
  | some staged => promote (.promote round) (artifactFailure .commit) staged projection.destination
  | none =>
    .act (.promote round) (artifactFailure .commit) fun s =>
      if (s.publicFiles projection.destination).isSome then
        .ok ((), s.remove projection.destination)
      else
        .error (.failed (.commit .notFound))

/-- The loop of `commit_public_projections`. -/
def commitPublicProjectionsFrom : Nat → List (PreparedPublicProjection Path) →
  List (CommittedPublicProjection Path) →
    Operation Path ArtifactPublicationFailure (List (CommittedPublicProjection Path))
  | _, [], committed => pure committed
  | round, projection :: projections, committed => do
    .undoing (checkCancelled (.promotePoll round) .cancelled)
      (rollbackPublicProjections committed)
    .undoing (promoteProjection round projection) (rollbackPublicProjections committed)
    commitPublicProjectionsFrom (round + 1) projections
      (committed ++ [⟨projection.destination, projection.backup⟩])

def commitPublicProjections (projections : List (PreparedPublicProjection Path)) :
  Operation Path ArtifactPublicationFailure (List (CommittedPublicProjection Path)) :=
  commitPublicProjectionsFrom 0 projections []

/-! ## 3. The reference and the retained generations -/

/-- `commit_reference`: the rename is the commit point, and a failed flush after it a warning. -/
def commitReference (replacement : ReplacementPolicy) (reference : GenerationReference) :
  Operation Path ArtifactPublicationFailure (Option ArtifactPublicationFailure) := do
  .check .referenceCreate (artifactFailure .open)
  .check .referenceWrite (artifactFailure .write)
  .check .referenceFinish (artifactFailure .flush)
  checkCancelled .referencePoll .cancelled
  .act .referencePromote (artifactFailure .commit) fun s =>
    if replacementMode replacement = .requireAbsent ∧ s.reference.isSome then
      .error (.failed (.commit .alreadyExists))
    else
      .ok ((), { s with reference := some reference })
  .tolerate (.check .referenceFlush (artifactFailure .commit))

def GenerationReference.retained (reference : GenerationReference) : List (List UInt8) :=
  reference.current.locator :: (reference.previous.map GenerationReferenceEntry.locator).toList

/-- `prune_generations` on one child of the store. -/
def pruneGeneration (env : Environment Path) (reference : GenerationReference) (_ : Nat)
  (locator : List UInt8) : Operation Path StorageErrorKind Unit :=
  if locator ∈ reference.retained then
    pure ()
  else
    .write (.retention locator) (.of .remove) fun s =>
      if env.leased locator then s
      else { s with generations := s.generations.filter fun entry => entry.1 ≠ locator }

def retainRecentGenerations (env : Environment Path) (reference : GenerationReference) :
  Operation Path StorageErrorKind Unit := do
  let children ← Program.read fun s => s.generations.map Prod.fst
  Program.eachFrom (pruneGeneration env reference) 0 children
  .check .retentionFlush (.of .flush)

/-! ## 4. The transaction -/

/-- What a publication has in hand when it records itself in the journal. -/
structure PreparedPublication (Path : Type) where
  priorReference : Option GenerationReference
  manifest : GenerationManifest Path
  locator : List UInt8
  identity : List UInt8
  projections : List (PreparedPublicProjection Path)

structure ManagedGenerationPublication where
  identity : List UInt8
  locator : List UInt8
  warning : Option ArtifactPublicationFailure
deriving DecidableEq

/-- `generation_public_paths` of the preceding generation, none where there is none. -/
def precedingPublicPaths (env : Environment Path) :
  Option GenerationReference → Operation Path ArtifactPublicationFailure (Finset Path)
  | none => pure ∅
  | some reference => do
    let manifest ← .mapError storageFailure (readManifest env .precedingManifest reference.current)
    pure manifest.publicPaths

/-- `publish_managed_generation` before `record_publication`. -/
def preparePublication (env : Environment Path) (plan : ManagedPlan Path)
  (replacement : ReplacementPolicy) :
  Operation Path ArtifactPublicationFailure (PreparedPublication Path) := do
  if plan.artifacts.isEmpty then
    Program.refuse .startPoll .cancelled
  else do
    checkCancelled .startPoll .cancelled
    .mapError storageFailure (.check .layout (.of .create))
    .mapError storageFailure (.check .lock (.of .lock))
    .mapError storageFailure (recoverPublication env)
    let priorReference ← .mapError storageFailure (readReference .reference)
    let preceding ← precedingPublicPaths env priorReference
    .check .privateDirectory (artifactFailure .open)
    let generation ← stageGeneration env plan
    .mapError storageFailure (.check .share (.of .create))
    .check .manifestEncode (artifactFailure .write)
    let identity := env.manifestDigest generation.manifest
    .check .manifestWrite (artifactFailure .write)
    .check .privateFlush (artifactFailure .flush)
    checkCancelled .generationPoll .cancelled
    let locator ← commitGeneration env identity generation
    checkCancelled .projectionPoll .cancelled
    let projections ← preparePublicProjections locator plan.artifacts
      (preceding \ generation.manifest.publicPaths) replacement
    .mapError storageFailure (.check .recordGeneration (.of .write))
    pure ⟨priorReference, generation.manifest, locator, identity, projections⟩

/-- `publish_managed_generation` from `record_publication` on. Only the failures under `undoing`
  roll the public files back. -/
def publishPrepared (env : Environment Path) (replacement : ReplacementPolicy)
  (ready : PreparedPublication Path) :
  Operation Path ArtifactPublicationFailure ManagedGenerationPublication := do
  .mapError storageFailure (recordPublication ready.manifest)
  let committed ← commitPublicProjections ready.projections
  .undoing (.check .projectionFlush (artifactFailure .flush)) (rollbackPublicProjections committed)
  let reference := GenerationReference.publish ⟨ready.locator, ready.identity⟩ ready.priorReference
  .check .encodeReference fun _ => .failed .invalidGenerationManifest
  .mapError storageFailure (.check .lease (.of .lock))
  let referenceWarning ← .undoing (commitReference replacement reference)
    (rollbackPublicProjections committed)
  let journalWarning ← .tolerate (.mapError storageFailure
    (completePublication .complete .completeFlush))
  let cancelled ← Program.poll .retentionPoll
  let retentionWarning ←
    if cancelled ∨ journalWarning.isSome then pure none
    else .tolerate (.mapError storageFailure (retainRecentGenerations env reference))
  pure ⟨ready.identity, ready.locator,
    (referenceWarning.orElse fun _ => journalWarning).orElse fun _ => retentionWarning⟩

def publishManagedGeneration (env : Environment Path) (plan : ManagedPlan Path)
  (replacement : ReplacementPolicy) :
  Operation Path ArtifactPublicationFailure ManagedGenerationPublication := do
  let ready ← preparePublication env plan replacement
  publishPrepared env replacement ready

end Bray.Publication
