/-
  File:      Bray/Container/Assemble.lean
  Subject:   ASSEMBLING: `assemble_sections`, and containers that are sealed with their hashes.

  The writer stores each payload raw or as a frame, puts the payloads behind the header and the directory
  behind the payloads, and computes the hashes last. A container is sealed when its header declares its
  length and its directory and its hashes are those of its bytes. Sealed containers whose entries fit are
  accepted, wherever the payloads lie.
-/
import Bray.Container.Accept

namespace Bray.Container

open List InterfaceHeader

open Lib (except_bind_eq_ok except_ok_bind)

/-! ## 1. Sections to store -/

/-- `EncodedArtifactSection`. -/
structure EncodedArtifactSection where
  tag : InterfaceSectionTag
  recordCount : UInt64
  payload : List UInt8

/-- `StoredArtifactSection`. -/
structure StoredArtifactSection where
  tag : InterfaceSectionTag
  encoding : InterfaceSectionEncoding
  decodedLength : UInt64
  recordCount : UInt64
  contentHash : Hash
  payload : List UInt8

/-- `InterfaceArtifact`. -/
structure InterfaceArtifact (Identity : Type) where
  identity : Identity
  bytes : List UInt8
  byteLen : UInt64
  sectionCount : UInt64
  contentHash : Hash
  artifactHash : Hash

/-- `usize_to_u64`. -/
def usizeToU64 (context : InterfaceValidationContext) (field : InterfaceValidationField) (value : Nat) :
  Outcome UInt64 :=
  if value < wordLimit then .ok (UInt64.ofNat value)
  else malformed context (.numericOverflow field (wordLimit - 1) .u64)

/-- `checked_add` and `checked_mul`, with the error where the result does not fit. -/
def checked (value : Nat) (error : InterfaceValidationError) : Outcome Nat :=
  if value < wordLimit then .ok value else reject error

section Assemble

variable (digest : Digest) (codec : FrameCodec)

/-- `StoredArtifactSection::try_from_decoded`. -/
def StoredArtifactSection.tryFromDecoded (decoded : EncodedArtifactSection) : Outcome StoredArtifactSection := do
  let context := .container decoded.tag
  let decodedLength ← usizeToU64 context .decodedLength decoded.payload.length
  let contentHash := computeSectionContentHash digest decoded.tag decoded.payload
  let (encoding, payload) ← encodeSection codec context decoded.payload
  return {
    tag := decoded.tag
    encoding := encoding
    decodedLength := decodedLength
    recordCount := decoded.recordCount
    contentHash := contentHash
    payload := payload }

/-- `encoded_directory_entry`, with the checksum that it leaves blank. -/
def encodedDirectoryEntry (stored : StoredArtifactSection) (payloadOffset : Nat) (checksum : Hash) :
  Outcome DirectoryEntry := do
  let offset ← usizeToU64 (.container stored.tag) .sectionOffset payloadOffset
  let encodedLength ← usizeToU64 (.container stored.tag) .encodedLength stored.payload.length
  return .forEncoded stored.tag stored.encoding offset encodedLength stored.decodedLength stored.recordCount
    checksum stored.contentHash

/-- The loop over the stored sections: the entries, and the payloads one after another. -/
def placeSections : Nat → List StoredArtifactSection → Outcome (List DirectoryEntry × List UInt8)
  | _, [] => .ok ([], [])
  | payloadOffset, stored :: rest => do
    let blank ← encodedDirectoryEntry stored payloadOffset .zero
    let checksum := computeSectionHash digest blank stored.payload
    let entry ← encodedDirectoryEntry stored payloadOffset checksum
    let next ← checked (payloadOffset + stored.payload.length)
      (.malformed (.container stored.tag) (.rangeOverflow payloadOffset stored.payload.length))
    let (entries, payloads) ← placeSections next rest
    return (entry :: entries, stored.payload ++ payloads)

/-- `encode_header`. -/
def encodeHeader (languageRevision : UInt16) (fileLength directoryOffset directoryLength : Nat) :
  Outcome (List UInt8) := do
  let declaredFileLength ← usizeToU64 .header .declaredFileLength fileLength
  let offset ← usizeToU64 .header .directoryOffset directoryOffset
  let length ← usizeToU64 .header .directoryLength directoryLength
  let header : InterfaceHeader := {
    formatRevision := currentFormatRevision
    languageRevision := languageRevision
    requiredFlags := noRequiredFlags
    declaredFileLength := declaredFileLength
    directoryOffset := offset
    directoryLength := length
    contentHash := .zero
    artifactHash := .zero }
  return header.identityBytes ++ header.contentHash.val ++ header.artifactHash.val

/-- `copy_from_slice` into a part of the bytes, which panics where they have no such part. -/
def copyInto (bytes : List UInt8) (offset : Nat) (block : List UInt8) : Outcome (List UInt8) :=
  if offset + block.length ≤ bytes.length then .ok (Lib.splice bytes offset block) else .error .panicked

/-- `finish_hashes`. -/
def finishHashes {Identity : Type} (identity : Identity) (bytes : List UInt8)
  (entries : List DirectoryEntry) : Outcome (InterfaceArtifact Identity) := do
  let decoded ← mapErr (mapWireError .header .value) (decode bytes)
  let contentHash := computeContentHash digest decoded.header (contributions entries)
  let bytes ← copyInto bytes contentHashOffset contentHash.val
  match computeArtifactHash digest bytes with
  | none => reject (.digestUnavailable .artifact .artifactHash)
  | some artifactHash =>
    let bytes ← copyInto bytes artifactHashOffset artifactHash.val
    let byteLen ← usizeToU64 .artifact .declaredFileLength bytes.length
    let sectionCount ← usizeToU64 .directory .recordCount entries.length
    return ⟨identity, bytes, byteLen, sectionCount, contentHash, artifactHash⟩

/-- `assemble_stored_sections`. -/
def assembleStoredSections {Identity : Type} (stored : List StoredArtifactSection) (identity : Identity)
  (languageRevision : UInt16) : Outcome (InterfaceArtifact Identity) := do
  let payloadLength := (stored.map fun part => part.payload.length).sum
  let directoryLength ← checked (stored.length * DirectoryEntry.length)
    (.malformed .directory (.rangeOverflow stored.length DirectoryEntry.length))
  -- the message sums the lengths again, and panics where the sum does not fit
  if wordLimit ≤ payloadLength then .error .panicked else
  let directoryOffset ← checked (InterfaceHeader.length + payloadLength)
    (.malformed .artifact (.rangeOverflow InterfaceHeader.length payloadLength))
  let fileLength ← checked (directoryOffset + directoryLength)
    (.malformed .artifact (.rangeOverflow directoryOffset directoryLength))
  let header ← encodeHeader languageRevision fileLength directoryOffset directoryLength
  let (entries, payloads) ← placeSections digest InterfaceHeader.length stored
  finishHashes digest identity (header ++ payloads ++ (entries.map DirectoryEntry.encode).flatten) entries

/-- `try_from_decoded` of every section. -/
def storeSections : List EncodedArtifactSection → Outcome (List StoredArtifactSection)
  | [] => .ok []
  | decoded :: rest => do
    let stored ← StoredArtifactSection.tryFromDecoded digest codec decoded
    let others ← storeSections rest
    return stored :: others

/-- `assemble_sections`. -/
def assembleSections {Identity : Type} (sections : List EncodedArtifactSection) (identity : Identity)
  (languageRevision : UInt16) : Outcome (InterfaceArtifact Identity) := do
  let stored ← storeSections digest codec sections
  assembleStoredSections digest stored identity languageRevision

end Assemble

/-! ## 2. Sealed containers -/

section Seal

variable (digest : Digest)

/-- The header with the hashes of a container whose bytes behind the header are given. -/
def InterfaceHeader.sealed (header : InterfaceHeader) (entries : List DirectoryEntry) (rest : List UInt8) :
  InterfaceHeader :=
  let contentHash := computeContentHash digest header (contributions entries)
  { header with
    contentHash := contentHash
    artifactHash := digest (header.identityBytes ++ contentHash.val ++ Hash.zero.val ++ rest) }

/-- The bytes of a header and what stands behind it. -/
def InterfaceHeader.fileBytes (header : InterfaceHeader) (rest : List UInt8) : List UInt8 :=
  header.identityBytes ++ (header.contentHash.val ++ (header.artifactHash.val ++ rest))

theorem InterfaceHeader.length_fileBytes (header : InterfaceHeader) (rest : List UInt8) :
    (header.fileBytes rest).length = InterfaceHeader.length + rest.length := by
  simp only [InterfaceHeader.fileBytes, length_append, length_identityBytes,
    Hash.length_val, InterfaceHeader.length]
  omega

variable {digest}

variable (digest) in
/-- The hash field of the artifact is blanked before the artifact is hashed. -/
theorem computeArtifactHash_fileBytes (header : InterfaceHeader) (rest : List UInt8) :
    computeArtifactHash digest (header.fileBytes rest) =
      some (digest (header.identityBytes ++ header.contentHash.val ++ Hash.zero.val ++ rest)) := by
  have long : artifactHashOffset + 32 ≤ (header.fileBytes rest).length := by
    rw [InterfaceHeader.length_fileBytes]
    exact Nat.le_add_right _ _
  have front : (header.identityBytes ++ header.contentHash.val).length = artifactHashOffset := by
    simp [artifactHashOffset]
  have split : header.fileBytes rest =
    (header.identityBytes ++ header.contentHash.val) ++ (header.artifactHash.val ++ rest) := by
    rw [InterfaceHeader.fileBytes, append_assoc]
  have back : (header.fileBytes rest).drop (artifactHashOffset + 32) = rest := by
    rw [split, ← drop_drop, ← front, drop_left, drop_left' (Hash.length_val header.artifactHash)]
  rw [computeArtifactHash, if_pos long, back, split, ← front, take_left]

variable (digest) in
/-- **The hashes that `finish_hashes` writes** seal the container. -/
theorem finishHashes_eq {Identity : Type} (identity : Identity) (header : InterfaceHeader)
    (entries : List DirectoryEntry) (rest : List UInt8)
    (word : InterfaceHeader.length + rest.length < wordLimit) (count : entries.length < wordLimit) :
  let blank := { header with contentHash := .zero, artifactHash := .zero }
  let done := header.sealed digest entries rest
  finishHashes digest identity (blank.fileBytes rest) entries =
    .ok ⟨identity, done.fileBytes rest, UInt64.ofNat (InterfaceHeader.length + rest.length),
      UInt64.ofNat entries.length, done.contentHash, done.artifactHash⟩ := by
  intro blank done
  have decoded := decode_identityBytes blank rest
  have same : computeContentHash digest blank (contributions entries) = done.contentHash := rfl
  -- the content hash is written where the header has room for it
  have first : copyInto (blank.fileBytes rest) contentHashOffset done.contentHash.val =
    .ok ({ done with artifactHash := .zero }.fileBytes rest) := by
    have room : contentHashOffset + done.contentHash.val.length ≤ (blank.fileBytes rest).length := by
      simp only [InterfaceHeader.length_fileBytes, Hash.length_val, InterfaceHeader.length,
        contentHashOffset]
      omega
    rw [copyInto, if_pos room]
    exact congrArg _ (Lib.splice_between header.identityBytes _ _ _ (length_identityBytes header)
      (by simp))
  have second : copyInto ({ done with artifactHash := .zero }.fileBytes rest)
    artifactHashOffset done.artifactHash.val = .ok (done.fileBytes rest) := by
    have room : artifactHashOffset + done.artifactHash.val.length ≤
      ({ done with artifactHash := .zero }.fileBytes rest).length := by
      simp only [InterfaceHeader.length_fileBytes, Hash.length_val, InterfaceHeader.length,
        artifactHashOffset]
      omega
    have shape : ∀ hash : Hash, { done with artifactHash := hash }.fileBytes rest =
      (header.identityBytes ++ done.contentHash.val) ++ (hash.val ++ rest) := by
      intro hash
      exact (append_assoc _ _ _).symm
    rw [copyInto, if_pos room, shape]
    rw [Lib.splice_between _ _ done.artifactHash.val rest (by simp [artifactHashOffset])
      (by simp)]
    exact congrArg _ (shape done.artifactHash).symm
  have hash := computeArtifactHash_fileBytes digest { done with artifactHash := .zero } rest
  have length : (done.fileBytes rest).length = InterfaceHeader.length + rest.length :=
    InterfaceHeader.length_fileBytes done rest
  have artifactHash : digest ({ done with artifactHash := .zero }.identityBytes ++
    { done with artifactHash := .zero }.contentHash.val ++ Hash.zero.val ++ rest) = done.artifactHash := rfl
  rw [artifactHash] at hash
  rw [finishHashes, show blank.fileBytes rest = blank.identityBytes ++
    (blank.contentHash.val ++ (blank.artifactHash.val ++ rest)) from rfl, decoded]
  simp only [mapErr, except_ok_bind, same]
  rw [show blank.identityBytes ++ (blank.contentHash.val ++ (blank.artifactHash.val ++ rest)) =
    blank.fileBytes rest from rfl, first]
  simp only [except_ok_bind, hash, second, usizeToU64, length, if_pos word, if_pos count]
  rfl

/-! ## 3. Sealed containers are accepted -/

def behindHeader (body : List UInt8) (entries : List DirectoryEntry) : List UInt8 :=
  body ++ (entries.map DirectoryEntry.encode).flatten

def ChecksumHolds (digest : Digest) (bytes : List UInt8) (entry : DirectoryEntry) : Prop :=
  ∃ payload, entry.payload bytes = some payload ∧ computeSectionHash digest entry payload = entry.checksum

def sealedBytes (digest : Digest) (header : InterfaceHeader) (body : List UInt8)
  (entries : List DirectoryEntry) : List UInt8 :=
  (header.sealed digest entries (behindHeader body entries)).fileBytes (behindHeader body entries)

/-- A header, a part behind it and the entries of a directory behind that part make up a container that
keeps every rule: the header declares the lengths, and the entries are well-formed and fit. -/
structure Sealed (digest : Digest) (codec : FrameCodec) (policy : InterfaceValidationPolicy)
  (header : InterfaceHeader) (body : List UInt8) (entries : List DirectoryEntry) : Prop where
  format : header.formatRevision = currentFormatRevision
  language : header.languageRevision = policy.languageRevision
  flags : header.requiredFlags = noRequiredFlags
  declared : header.declaredFileLength.toNat =
    InterfaceHeader.length + body.length + entries.length * DirectoryEntry.length
  offset : header.directoryOffset.toNat = InterfaceHeader.length + body.length
  directory : header.directoryLength.toNat = entries.length * DirectoryEntry.length
  fileSize : header.declaredFileLength.toNat ≤ policy.limits.fileSize.toNat
  count : entries.length ≤ policy.limits.sectionCount.toNat
  wellFormed : ∀ entry ∈ entries, WellFormed codec (sealedBytes digest header body entries) entry
  checksums : ∀ entry ∈ entries, ChecksumHolds digest (sealedBytes digest header body entries) entry
  follows : Follows (sealedBytes digest header body entries)
    ⟨header.directoryOffset.toNat, header.declaredFileLength.toNat⟩ policy.limits .start entries

theorem validateSectionHashes_eq_ok {bytes : List UInt8} {entries : List DirectoryEntry} {index : Nat}
    (holds : ∀ entry ∈ entries, ChecksumHolds digest bytes entry) :
    validateSectionHashes digest bytes index entries = .ok () := by
  induction entries generalizing index with
  | nil => rfl
  | cons entry entries ih =>
    obtain ⟨payload, found, same⟩ := holds entry (.head _)
    have first : validateSectionHash digest bytes index entry = .ok () := by
      simp [validateSectionHash, found, same]
    rw [validateSectionHashes, first]
    exact ih fun other member => holds other (mem_cons_of_mem entry member)

section Accepted

variable {codec : FrameCodec} {policy : InterfaceValidationPolicy} {header : InterfaceHeader}
  {body : List UInt8} {entries : List DirectoryEntry}

theorem length_directory (entries : List DirectoryEntry) :
    (entries.map DirectoryEntry.encode).flatten.length = entries.length * DirectoryEntry.length := by
  have sizes : ∀ block ∈ entries.map DirectoryEntry.encode, block.length = DirectoryEntry.length := by
    intro block member
    obtain ⟨entry, _, rfl⟩ := mem_map.mp member
    exact DirectoryEntry.length_encode entry
  rw [Lib.length_flatten_of_length sizes, length_map]

theorem length_behindHeader (body : List UInt8) (entries : List DirectoryEntry) :
    (behindHeader body entries).length = body.length + entries.length * DirectoryEntry.length := by
  rw [behindHeader, length_append, length_directory]

namespace Sealed

variable (container : Sealed digest codec policy header body entries)

include container

theorem length_bytes : (sealedBytes digest header body entries).length = header.declaredFileLength.toNat := by
  rw [sealedBytes, InterfaceHeader.length_fileBytes, length_behindHeader, container.declared]
  exact (Nat.add_assoc _ _ _).symm

theorem directory_stop :
    header.directoryOffset.toNat + header.directoryLength.toNat = header.declaredFileLength.toNat := by
  rw [container.offset, container.directory, container.declared]

theorem validateFileSize_eq_ok : validateFileSize (sealedBytes digest header body entries).length policy = .ok () := by
  rw [validateFileSize, container.length_bytes,
    usizeToU64Saturating_toNat header.declaredFileLength.toNat_lt, check_eq_ok]
  exact container.fileSize

theorem validateHeader_eq_ok :
    validateHeader ⟨magic, byteOrderMarker, header.sealed digest entries (behindHeader body entries)⟩
      (sealedBytes digest header body entries) policy = .ok () := by
  have declared : (header.sealed digest entries (behindHeader body entries)).declaredFileLength =
    header.declaredFileLength := rfl
  have multiple : (header.sealed digest entries (behindHeader body entries)).directoryLength.toNat %
    DirectoryEntry.length = 0 := by
    rw [show (header.sealed digest entries (behindHeader body entries)).directoryLength =
      header.directoryLength from rfl, container.directory, Nat.mul_mod_left]
  have format : (header.sealed digest entries (behindHeader body entries)).formatRevision =
    currentFormatRevision := container.format
  have language : (header.sealed digest entries (behindHeader body entries)).languageRevision =
    policy.languageRevision := container.language
  have flags : (header.sealed digest entries (behindHeader body entries)).requiredFlags =
    noRequiredFlags := container.flags
  have actual := usizeToU64Saturating_toNat header.declaredFileLength.toNat_lt
  simp only [validateHeader, format, language, flags, declared, multiple, container.length_bytes, actual,
    bne_self_eq_false, Bool.false_eq_true, if_false, lt_irrefl]
  rfl

/-- The directory stands at the end of the bytes. -/
theorem slice_directory : Lib.slice (sealedBytes digest header body entries) header.directoryOffset.toNat
    header.declaredFileLength.toNat = (entries.map DirectoryEntry.encode).flatten := by
  let done := header.sealed digest entries (behindHeader body entries)
  have split : sealedBytes digest header body entries = (done.identityBytes ++ (done.contentHash.val ++
    (done.artifactHash.val ++ body))) ++ ((entries.map DirectoryEntry.encode).flatten ++ []) := by
    simp [sealedBytes, InterfaceHeader.fileBytes, behindHeader, append_assoc, append_nil, done]
  have front : (done.identityBytes ++ (done.contentHash.val ++ (done.artifactHash.val ++ body))).length =
    header.directoryOffset.toNat := by
    simp only [length_append, length_identityBytes, Hash.length_val, container.offset,
      InterfaceHeader.length]
    omega
  rw [split]
  apply Lib.slice_between _ _ _ front
  rw [front, length_directory, ← container.directory_stop, container.directory]

theorem decodeDirectory_eq_ok : decodeDirectory codec (sealedBytes digest header body entries)
    ⟨header.directoryOffset.toNat, header.declaredFileLength.toNat⟩ policy = .ok entries := by
  have span : header.declaredFileLength.toNat - header.directoryOffset.toNat =
    entries.length * DirectoryEntry.length := by
    rw [← container.directory_stop, Nat.add_sub_cancel_left, container.directory]
  have small : header.declaredFileLength.toNat - header.directoryOffset.toNat < wordLimit :=
    lt_of_le_of_lt (Nat.sub_le _ _) header.declaredFileLength.toNat_lt
  have order : header.directoryOffset.toNat ≤ header.declaredFileLength.toNat := by
    rw [← container.directory_stop]
    exact Nat.le_add_right _ _
  have cut : Lib.chunksExact DirectoryEntry.length (entries.map DirectoryEntry.encode).flatten =
    entries.map DirectoryEntry.encode := by
    apply Lib.chunksExact_flatten (by decide)
    intro block member
    obtain ⟨entry, _, rfl⟩ := mem_map.mp member
    exact DirectoryEntry.length_encode entry
  have sections : policy.limits.check .sectionCount ((usizeToU64Saturating (Range.length
    ⟨header.directoryOffset.toNat, header.declaredFileLength.toNat⟩)).toNat / DirectoryEntry.length) =
    .ok () := by
    rw [check_eq_ok, Range.length, usizeToU64Saturating_toNat small, span, Nat.mul_div_cancel _ (by decide)]
    exact container.count
  rw [decodeDirectory, sections]
  simp only [except_ok_bind, index, if_pos (And.intro order container.length_bytes.ge),
    container.slice_directory, cut]
  exact decodeEntries_encode container.wellFormed container.follows

theorem validateHashes_eq_ok :
    validateHashes digest (header.sealed digest entries (behindHeader body entries)) entries
      (sealedBytes digest header body entries) = .ok () := by
  let done := header.sealed digest entries (behindHeader body entries)
  have checksums : validateSectionHashes digest (sealedBytes digest header body entries) 0 entries = .ok () :=
    validateSectionHashes_eq_ok container.checksums
  have artifact : computeArtifactHash digest (sealedBytes digest header body entries) = some done.artifactHash :=
    computeArtifactHash_fileBytes digest done (behindHeader body entries)
  have content : computeContentHash digest done (contributions entries) = done.contentHash := rfl
  rw [validateHashes, checksums]
  simp only [except_ok_bind, artifact, bne_self_eq_false, Bool.false_eq_true, if_false, done]
  rw [content]
  simp only [done, bne_self_eq_false, Bool.false_eq_true, if_false]
  rfl

/-- **A sealed container is accepted** with its header and its entries. -/
theorem tryNew_eq_ok :
    ValidatedPackageInterface.tryNew digest codec (sealedBytes digest header body entries) policy =
      .ok ⟨sealedBytes digest header body entries, header.sealed digest entries (behindHeader body entries),
        entries⟩ := by
  let done := header.sealed digest entries (behindHeader body entries)
  have decoded : decode (sealedBytes digest header body entries) =
    .ok ⟨magic, byteOrderMarker, done⟩ :=
    decode_identityBytes done (behindHeader body entries)
  have range : checkedRange done.directoryOffset done.directoryLength
    (sealedBytes digest header body entries).length =
    .ok ⟨header.directoryOffset.toNat, header.declaredFileLength.toNat⟩ := by
    refine checkedRange_eq_ok.mpr ⟨?_, header.declaredFileLength.toNat_lt, container.length_bytes.ge⟩
    exact congrArg _ container.directory_stop.symm
  rw [ValidatedPackageInterface.tryNew, container.validateFileSize_eq_ok]
  simp only [except_ok_bind, decoded, mapErr, container.validateHeader_eq_ok, range,
    container.decodeDirectory_eq_ok, container.validateHashes_eq_ok, done]
  rfl

end Sealed

end Accepted

end Seal

end Bray.Container
