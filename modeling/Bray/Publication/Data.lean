/-
  File:      Bray/Publication/Data.lean
  Subject:   WHAT PUBLICATION READS AND WRITES (publication/generation/manifest.rs, reference.rs,
    recovery.rs, file_staging.rs).

  A product store holds generations under their locators, one reference file and at most one
  journal; the public files of the product lie outside it. Each file operation is one atomic step
  under a name of its own (`Step`), so the fates of a call say which of them fail and where the
  process ends.

  * `File`, `Generation`, `GenerationManifest`, `GenerationReference`, `PendingPublication` -- the
    files; the texts no modelled check reads are one field each (`description`, `record`);
  * `Store` -- the durable state of one product; `Store.lookup`, `Store.stored`, `Store.place`,
    `Store.remove`, `Store.insert` -- how it is read and written;
  * `Environment` -- the digests and the generation leases, which are not this code's.
-/
import Bray.Lib.Crash
import Mathlib.Data.Finset.Sort

namespace Bray.Publication

open Lib

section
variable {Path : Type} [LinearOrder Path]
scoped instance pathsTrans : IsTrans Path (· ≤ ·) := inferInstance
scoped instance pathsAntisymm : Std.Antisymm (· ≤ · : Path → Path → Prop) := inferInstance
end

/-! ## 1. Errors -/

/-- `std::io::ErrorKind`, as far as the code tells its values apart. -/
inductive ErrorKind where
  | notFound
  | alreadyExists
  | permissionDenied
  | unsupported
  | invalidData
  | other
deriving DecidableEq

/-- Why a step fails: an operating-system error, or a cancellation the step itself observes. -/
inductive Cause where
  | io (kind : ErrorKind)
  | cancelled

inductive StorageOperation where
  | inspect
  | create
  | read
  | write
  | flush
  | lock
  | rename
  | remove
deriving DecidableEq

/-- `DiagnosticRetainedGenerationProblem`, the problems publication and recovery can meet. -/
inductive GenerationProblem where
  | referenceRevision (expected actual : Nat)
  | referenceIdentity
  | artifactSelection
  | logicalPermission
  | readOnly (expected actual : Bool)
  | unixMode (expected actual : Option Nat)
deriving DecidableEq

inductive StorageErrorKind where
  | artifactLength (expected actual : Nat)
  | artifactDigest (expected actual : List UInt8)
  | generation (problem : GenerationProblem)
  | revision (expected actual : Nat)
  | io (operation : StorageOperation) (cause : ErrorKind)
  | cancelled
deriving DecidableEq

/-- `StorageError::io`, and the cancellation a copying step reports in its place. -/
def StorageErrorKind.of (operation : StorageOperation) : Cause → StorageErrorKind
  | .io cause => .io operation cause
  | .cancelled => .cancelled

inductive PublicationErrorKind where
  | invalidContribution
  | invalidGenerationManifest
  | generationCollision
  | managedPublicationUnsupported
  | open (cause : ErrorKind)
  | read (cause : ErrorKind)
  | write (cause : ErrorKind)
  | flush (cause : ErrorKind)
  | commit (cause : ErrorKind)
  | storage (error : StorageErrorKind)
deriving DecidableEq

inductive ArtifactPublicationFailure where
  | cancelled
  | failed (kind : PublicationErrorKind)
deriving DecidableEq

/-- `artifact_failure` of a step that can also observe cancellation. -/
def artifactFailure (kind : ErrorKind → PublicationErrorKind) : Cause → ArtifactPublicationFailure
  | .io cause => .failed (kind cause)
  | .cancelled => .cancelled

/-- `storage_failure`. -/
def storageFailure : StorageErrorKind → ArtifactPublicationFailure
  | .cancelled => .cancelled
  | error => .failed (.storage error)

/-! ## 2. Files -/

inductive ArtifactKind where
  | assembly
  | backendIr
  | backendBitcode
  | relocatableObject
  | debugCompanion
  | packageInterface
  | packageNativeImplementation
  | packageImplementation
  | dependencyMetadata
  | testCatalog
  | executable
  | executableModule
  | staticLibrary
  | sharedLibrary
  | linkedCompanion
deriving DecidableEq

inductive DigestAlgorithm where
  | blake3
  | sha256
deriving DecidableEq

structure Permissions where
  unixMode : Option Nat
  readOnly : Bool
deriving DecidableEq

structure File where
  bytes : List UInt8
  permissions : Permissions

/-- `artifact_mode`. -/
def artifactMode : ArtifactKind → Nat
  | .executable | .executableModule => 0o755
  | _ => 0o644

def permissionKey : ArtifactKind → String
  | .executable | .executableModule => "executable"
  | _ => "data"

structure ManifestPermissions where
  logical : String
  permissions : Permissions
deriving DecidableEq

def ManifestPermissions.read (file : File) (kind : ArtifactKind) : ManifestPermissions :=
  ⟨permissionKey kind, file.permissions⟩

def ManifestPermissions.validate (recorded : ManifestPermissions) (file : File)
  (kind : ArtifactKind) : Except StorageErrorKind Unit :=
  let actual := ManifestPermissions.read file kind
  if recorded.logical ≠ actual.logical then
    .error (.generation .logicalPermission)
  else if recorded.permissions.readOnly ≠ actual.permissions.readOnly then
    .error (.generation (.readOnly recorded.permissions.readOnly actual.permissions.readOnly))
  else if recorded.permissions.unixMode ≠ actual.permissions.unixMode then
    .error (.generation (.unixMode recorded.permissions.unixMode actual.permissions.unixMode))
  else
    .ok ()

structure ManifestArtifact (Path : Type) where
  kind : ArtifactKind
  ordinal : Nat
  path : Path
  publishedPath : Path
  byteLen : Nat
  digestAlgorithm : DigestAlgorithm
  digest : List UInt8
  permissions : ManifestPermissions
  /-- Requirement, role and producer, which only the manifest's own bytes depend on. -/
  record : String
deriving DecidableEq

structure GenerationManifest (Path : Type) where
  /-- Revision, product, context and build identity. -/
  description : String
  artifacts : List (ManifestArtifact Path)
deriving DecidableEq

/-- A generation directory: its manifest and its artifact files. -/
structure Generation (Path : Type) where
  manifest : GenerationManifest Path
  files : Path → Option File

structure GenerationReferenceEntry where
  locator : List UInt8
  manifestDigest : List UInt8
deriving DecidableEq

structure GenerationReference where
  revision : Nat
  current : GenerationReferenceEntry
  previous : Option GenerationReferenceEntry

def REFERENCE_REVISION : Nat := 1

/-- `GenerationReference::publish`. -/
def GenerationReference.publish (current : GenerationReferenceEntry)
  (prior : Option GenerationReference) : GenerationReference where
  revision := REFERENCE_REVISION
  current := current
  previous := prior.bind fun prior =>
    if current = prior.current then prior.previous else some prior.current

/-- `recovery::REVISION`. -/
def REVISION : Nat := 1

/-- The journal. -/
structure PendingPublication (Path : Type) where
  revision : Nat
  paths : Finset Path

/-! ## 3. The store of one product -/

structure Store (Path : Type) where
  publicFiles : Path → Option File
  journal : Option (PendingPublication Path)
  reference : Option GenerationReference
  generations : List (List UInt8 × Generation Path)

/-- Content digests, locator probing and generation leases: the code of other crates and processes. -/
structure Environment (Path : Type) where
  manifestDigest : GenerationManifest Path → List UInt8
  contentDigest : DigestAlgorithm → List UInt8 → List UInt8
  forIdentity : List UInt8 → Nat → List UInt8
  leased : List UInt8 → Bool

namespace Store

variable {Path : Type}

def lookup (s : Store Path) (locator : List UInt8) : Option (Generation Path) :=
  s.generations.lookup locator

/-- One file of a generation directory. -/
def stored (s : Store Path) (locator : List UInt8) (path : Path) : Option File :=
  (s.lookup locator).bind fun generation => generation.files path

def insert (s : Store Path) (locator : List UInt8) (generation : Generation Path) : Store Path :=
  { s with generations := s.generations ++ [(locator, generation)] }

variable [DecidableEq Path]

def place (s : Store Path) (path : Path) (file : File) : Store Path :=
  { s with publicFiles := Function.update s.publicFiles path (some file) }

def remove (s : Store Path) (path : Path) : Store Path :=
  { s with publicFiles := Function.update s.publicFiles path none }

end Store

/-! ## 4. The steps -/

/-- The steps of `recover_publication`. -/
inductive RecoveryStep where
  | journal
  | journalPaths
  | reference
  | manifest
  | staging
  | poll (round : Nat)
  | validate (round : Nat)
  | directory (round : Nat)
  | stage (round : Nat)
  | promote (round : Nat)
  | flush (round : Nat)
  | removePoll (round : Nat)
  | remove (round : Nat)
  | complete
  | completeFlush
deriving DecidableEq

/-- The steps of `publish_managed_generation`, in the order in which it takes them. -/
inductive Step where
  | startPoll
  | layout
  | lock
  | recovery (step : RecoveryStep)
  | reference
  | precedingManifest
  | privateDirectory
  | stagePoll (round : Nat)
  | stageArtifact (round : Nat)
  | stageFlush
  | share
  | manifestEncode
  | manifestWrite
  | privateFlush
  | generationPoll
  | generationRename (attempt : Nat)
  | generationRead (attempt : Nat)
  | generationValidate (attempt : Nat)
  | generationFlush
  | projectionPoll
  | preparePoll (round : Nat)
  | requireAbsent (round : Nat)
  | backup (round : Nat)
  | stageProjection (round : Nat)
  | staleBackup (round : Nat)
  | recordGeneration
  | journalStage
  | journalPromote
  | journalFlush
  | promotePoll (round : Nat)
  | promote (round : Nat)
  | rollback (round : Nat)
  | rollbackFlush
  | projectionFlush
  | encodeReference
  | lease
  | referenceCreate
  | referenceWrite
  | referenceFinish
  | referencePoll
  | referencePromote
  | referenceFlush
  | complete
  | completeFlush
  | retentionPoll
  | retention (locator : List UInt8)
  | retentionFlush
deriving DecidableEq

/-- A program of the store that reports errors of the type `Error`. -/
abbrev Operation (Path Error α : Type) := Program (Store Path) Step Cause Error α

/-! ## 5. Staged files -/

inductive FileReplacementMode where
  | requireAbsent
  | replaceExisting
deriving DecidableEq

/-- `CompletedStagedFile`: a private file, and the permissions it is to be published with. -/
structure CompletedStagedFile where
  file : File
  finalPermissions : Option Permissions
  replacement : FileReplacementMode

/-- What a staged file becomes at its destination. -/
def CompletedStagedFile.published (staged : CompletedStagedFile) : File where
  bytes := staged.file.bytes
  permissions := staged.finalPermissions.getD staged.file.permissions

variable {Path Error : Type} [DecidableEq Path]

/-- `stage_owned_copy`: existing permissions of a destination that may be replaced are preserved. -/
def stageOwnedCopy (step : Step) (source : Store Path → Option File) (destination : Path)
  (replacement : FileReplacementMode) : Operation Path StorageErrorKind CompletedStagedFile :=
  .act step (.of .create) fun s =>
    match source s with
    | none => .error (.io .inspect .notFound)
    | some file =>
      let finalPermissions :=
        if replacement = .replaceExisting then (s.publicFiles destination).map File.permissions
        else none
      .ok (⟨file, finalPermissions, replacement⟩, s)

/-- `CompletedStagedFile::promote`: one atomic rename, exclusive where the destination must be
  absent. -/
def promote (step : Step) (onFailure : Cause → Error) (staged : CompletedStagedFile)
  (destination : Path) : Operation Path Error Unit :=
  .act step onFailure fun s =>
    if staged.replacement = .requireAbsent ∧ (s.publicFiles destination).isSome then
      .error (onFailure (.io .alreadyExists))
    else
      .ok ((), s.place destination staged.published)

/-- `check_cancelled`. -/
def checkCancelled (step : Step) (cancelled : Error) : Operation Path Error Unit := do
  if ← Program.poll step then
    Program.refuse step cancelled

end Bray.Publication
