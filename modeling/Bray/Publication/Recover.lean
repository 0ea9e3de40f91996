/-
  File:      Bray/Publication/Recover.lean
  Subject:   THE JOURNAL AND ITS REPLAY (publication/generation/recovery.rs, and what it calls of
    reference.rs, retention.rs and validation.rs).

  The journal lists the public paths of the generation being published. Recovery copies every
  artifact of the generation the reference names to its public path, then removes the journalled
  paths that generation does not have, then the journal.

  * `recordPublication`, `completePublication` -- the journal is written and removed;
  * `readJournal`, `readReference`, `readManifest`, `validateArtifactFile` -- what is checked first;
  * `recoverPublication` -- the replay.
-/
import Bray.Publication.Data

namespace Bray.Publication

open Lib

variable {Path : Type} [LinearOrder Path]

/-! ## 1. The journal -/

def GenerationManifest.publicPaths (manifest : GenerationManifest Path) : Finset Path :=
  (manifest.artifacts.map ManifestArtifact.publishedPath).toFinset

/-- `record_publication` through `write_owned_json`: the rename is what makes the journal durable. -/
def recordPublication (manifest : GenerationManifest Path) :
  Operation Path StorageErrorKind Unit := do
  .check .journalStage (.of .write)
  .write .journalPromote (.of .rename) fun s =>
    { s with journal := some ⟨REVISION, manifest.publicPaths⟩ }
  .check .journalFlush (.of .flush)

/-- `complete_publication`; an absent journal is as good as a removed one. -/
def completePublication (remove flush : Step) : Operation Path StorageErrorKind Unit := do
  let removed ← .act remove (.of .remove) fun s =>
    .ok (s.journal.isSome, { s with journal := none })
  if removed then
    .check flush (.of .flush)

def readJournal (step : Step) :
  Operation Path StorageErrorKind (Option (PendingPublication Path)) :=
  .act step (.of .read) fun s =>
    match s.journal with
    | none => .ok (none, s)
    | some journal =>
      if journal.revision ≠ REVISION then .error (.revision REVISION journal.revision)
      else .ok (some journal, s)

/-! ## 2. The reference and the manifest -/

/-- The checks of `GenerationReference::read`. -/
def GenerationReference.check (reference : GenerationReference) : Except StorageErrorKind Unit :=
  if reference.revision ≠ REFERENCE_REVISION then
    .error (.generation (.referenceRevision REFERENCE_REVISION reference.revision))
  else if reference.previous = some reference.current then
    .error (.generation .referenceIdentity)
  else
    .ok ()

/-- `GenerationReference::read`. -/
def readReference (step : Step) : Operation Path StorageErrorKind (Option GenerationReference) :=
  .act step (.of .read) fun s =>
    match s.reference with
    | none => .ok (none, s)
    | some reference => do
      reference.check
      .ok (some reference, s)

/-- `validate_manifest`: identities, private paths and public paths are each unique. -/
def validateManifest (manifest : GenerationManifest Path) : Except StorageErrorKind Unit :=
  if (manifest.artifacts.map fun a => (a.kind, a.ordinal)).Nodup ∧
    (manifest.artifacts.map ManifestArtifact.path).Nodup ∧
    (manifest.artifacts.map ManifestArtifact.publishedPath).Nodup then
    .ok ()
  else
    .error (.generation .artifactSelection)

/-- What `read_manifest` makes of the store. -/
def Store.manifest (env : Environment Path) (s : Store Path) (entry : GenerationReferenceEntry) :
  Except StorageErrorKind (GenerationManifest Path) :=
  match s.lookup entry.locator with
  | none => .error (.io .inspect .notFound)
  | some generation => do
    let actual := env.manifestDigest generation.manifest
    if actual ≠ entry.manifestDigest then
      throw (.artifactDigest entry.manifestDigest actual)
    validateManifest generation.manifest
    .ok generation.manifest

/-- `read_manifest`. -/
def readManifest (env : Environment Path) (step : Step) (entry : GenerationReferenceEntry) :
  Operation Path StorageErrorKind (GenerationManifest Path) :=
  .act step (.of .read) fun s => do
    let manifest ← s.manifest env entry
    .ok (manifest, s)

/-- `validate_artifact_file`. -/
def validateArtifactFile (env : Environment Path) (file : Option File)
  (artifact : ManifestArtifact Path) : Except StorageErrorKind Unit :=
  match file with
  | none => .error (.io .inspect .notFound)
  | some file => do
    artifact.permissions.validate file artifact.kind
    if file.bytes.length ≠ artifact.byteLen then
      throw (.artifactLength artifact.byteLen file.bytes.length)
    let actual := env.contentDigest artifact.digestAlgorithm file.bytes
    if actual ≠ artifact.digest then
      throw (.artifactDigest artifact.digest actual)

/-! ## 3. The replay -/

/-- One round of the copying loop of `recover_publication`. -/
def recoverArtifact (env : Environment Path) (locator : List UInt8) (round : Nat)
  (artifact : ManifestArtifact Path) : Operation Path StorageErrorKind Unit := do
  checkCancelled (.recovery (.poll round)) .cancelled
  .act (.recovery (.validate round)) (.of .read) fun s => do
    validateArtifactFile env (s.stored locator artifact.path) artifact
    .ok ((), s)
  .check (.recovery (.directory round)) (.of .create)
  let copy ← stageOwnedCopy (.recovery (.stage round)) (fun s => s.stored locator artifact.path)
    artifact.publishedPath .replaceExisting
  promote (.recovery (.promote round)) (.of .rename) copy artifact.publishedPath
  .check (.recovery (.flush round)) (.of .flush)

/-- The copying loop; what it returns is still to be removed. -/
def recoverArtifacts (env : Environment Path) (locator : List UInt8) :
  Nat → List (ManifestArtifact Path) → Finset Path → Operation Path StorageErrorKind (Finset Path)
  | _, [], uncommitted => pure uncommitted
  | round, artifact :: artifacts, uncommitted => do
    recoverArtifact env locator round artifact
    recoverArtifacts env locator (round + 1) artifacts
      (uncommitted.erase artifact.publishedPath)

/-- One round of the removing loop; `remove_public_file` finds nothing wrong with an absent file. -/
def removeUncommitted (round : Nat) (path : Path) : Operation Path StorageErrorKind Unit := do
  checkCancelled (.recovery (.removePoll round)) .cancelled
  .write (.recovery (.remove round)) (.of .remove) fun s => s.remove path

/-- The part of `recover_publication` that needs a reference; it returns the paths that are still to
  be removed. -/
def recoverCurrent (env : Environment Path) (paths : Finset Path) :
  Option GenerationReference → Operation Path StorageErrorKind (Finset Path)
  | none => pure paths
  | some reference => do
    let manifest ← readManifest env (.recovery .manifest) reference.current
    .check (.recovery .staging) (.of .create)
    recoverArtifacts env reference.current.locator 0 manifest.artifacts paths

def recoverPublication (env : Environment Path) : Operation Path StorageErrorKind Unit := do
  let some journal ← readJournal (.recovery .journal) | pure ()
  let reference ← readReference (.recovery .reference)
  .check (.recovery .journalPaths) (.of .inspect)
  let uncommitted ← recoverCurrent env journal.paths reference
  Program.eachFrom removeUncommitted 0 (uncommitted.sort (· ≤ ·))
  completePublication (.recovery .complete) (.recovery .completeFlush)

end Bray.Publication
