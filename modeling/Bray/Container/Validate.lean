/-
  File:      Bray/Container/Validate.lean
  Subject:   VALIDATION: `ValidatedPackageInterface::try_new` and the lookup of a section.

  The header is checked, then the entries of the directory one after another, then the hashes. The loop
  over the directory remembers the tag and the payload range of the entry before, and the sum of the
  decoded lengths. Slices that the code takes without a check panic in the model where they leave the
  bytes. What one entry that is accepted has passed is said once, and so for the whole directory.
-/
import Bray.Container.Frame

namespace Bray.Container

open Lib (except_bind_eq_ok except_bind_eq_error except_ok_bind)

/-! ## 1. Ranges -/

/-- `Range<usize>`. -/
structure Range where
  start : Nat
  stop : Nat

namespace Range

/-- `Range::len`. -/
def length (range : Range) : Nat := range.stop - range.start

def Contains (range : Range) (position : Nat) : Prop := range.start ≤ position ∧ position < range.stop

/-- No position lies in both ranges. -/
def Apart (left right : Range) : Prop := ∀ position, ¬ (left.Contains position ∧ right.Contains position)

end Range

/-- `ranges_overlap`. -/
def rangesOverlap (left right : Range) : Bool := left.start < right.stop && right.start < left.stop

/-- Ranges do not overlap where one ends before the other starts. -/
theorem rangesOverlap_of_le {left right : Range} (order : left.stop ≤ right.start ∨ right.stop ≤ left.start) :
    rangesOverlap left right = false := by
  simp only [rangesOverlap, Bool.and_eq_false_iff, decide_eq_false_iff_not, not_lt]
  omega

theorem apart_of_not_rangesOverlap {left right : Range} (clear : rangesOverlap left right = false) :
    Range.Apart left right := by
  intro position both
  obtain ⟨⟨_, _⟩, _, _⟩ := both
  simp only [rangesOverlap, Bool.and_eq_false_iff, decide_eq_false_iff_not] at clear
  omega

/-- `CheckedRangeError`. -/
inductive CheckedRangeError
  | overflow (offset length : Nat)
  | outOfBounds (offset length available : Nat)

/-- `available_length`. -/
def availableLength (offset : UInt64) (fileLength : Nat) : Nat :=
  (usizeToU64Saturating (fileLength - offset.toNat)).toNat

/-- `checked_range`. -/
def checkedRange (offset length : UInt64) (fileLength : Nat) : Except CheckedRangeError Range :=
  let stop := offset.toNat + length.toNat
  if stop < wordLimit then
    if fileLength < stop then
      .error (.outOfBounds offset.toNat length.toNat (availableLength offset fileLength))
    else .ok ⟨offset.toNat, stop⟩
  else .error (.overflow offset.toNat length.toNat)

/-- `range_validation_error`. -/
def rangeValidationError (context : InterfaceValidationContext) (field : InterfaceValidationField) :
  CheckedRangeError → InterfaceValidationError
  | .overflow offset length => .malformed context (.rangeOverflow offset length)
  | .outOfBounds offset length available => .truncated context field offset length available

/-- `map_wire_error`. -/
def mapWireError (context : InterfaceValidationContext) (field : InterfaceValidationField) :
  WireDecodeError → InterfaceValidationError
  | .truncated offset expectedLength actualLength =>
    .truncated context field offset expectedLength actualLength
  | .trailingBytes offset count => .trailingBytes context offset count

/-- `map_err`: a failure becomes an error of the validation. -/
def mapErr {ε α : Type} (error : ε → InterfaceValidationError) : Except ε α → Outcome α
  | .ok a => .ok a
  | .error e => reject (error e)

theorem mapErr_eq_ok {ε α : Type} {error : ε → InterfaceValidationError} {result : Except ε α} {a : α} :
    mapErr error result = .ok a ↔ result = .ok a := by
  cases result <;> simp [mapErr, reject]

theorem mapErr_ne_panicked {ε α : Type} {error : ε → InterfaceValidationError} {result : Except ε α} :
    mapErr error result ≠ .error .panicked := by
  cases result <;> simp [mapErr, reject]

/-- `header_field`. -/
def headerField (offset : Nat) : InterfaceValidationField :=
  if offset < 8 then .magic
  else if offset < 10 then .formatRevision
  else if offset < 12 then .languageRevision
  else if offset < 16 then .byteOrderMarker
  else if offset < 24 then .requiredFlags
  else if offset < 32 then .declaredFileLength
  else if offset < 40 then .directoryOffset
  else if offset < 48 then .directoryLength
  else if offset < 80 then .contentHash
  else .artifactHash

/-- `directory_field`. -/
def directoryField (offset : Nat) : InterfaceValidationField :=
  if offset < 4 then .sectionTag
  else if offset < 6 then .sectionRevision
  else if offset = 6 then .sectionCompatibility
  else if offset = 7 then .sectionEncoding
  else if offset < 16 then .sectionOffset
  else if offset < 24 then .encodedLength
  else if offset < 32 then .decodedLength
  else if offset < 40 then .recordCount
  else if offset < 72 then .hash
  else .contentHash

/-- `overlapping_range`. -/
def overlappingRange (context : InterfaceValidationContext) (range conflicting : Range) :
  InterfaceValidationError :=
  .malformed context (.rangeOverlap range.start range.length conflicting.start conflicting.length)

/-- A check that returns an error where a condition holds. -/
def rejectIf (condition : Bool) (error : InterfaceValidationError) : Outcome Unit :=
  if condition then reject error else .ok ()

/-- `bytes[range]`, which panics outside the bytes. -/
def index (bytes : List UInt8) (range : Range) : Outcome (List UInt8) :=
  if range.start ≤ range.stop ∧ range.stop ≤ bytes.length then .ok (Lib.slice bytes range.start range.stop)
  else .error .panicked

/-! ## 2. The header -/

/-- `validate_file_size`. -/
def validateFileSize (byteLength : Nat) (policy : InterfaceValidationPolicy) : Outcome Unit :=
  policy.limits.check .fileSize (usizeToU64Saturating byteLength).toNat

/-- `validate_header`. -/
def validateHeader (decoded : DecodedHeader) (bytes : List UInt8) (policy : InterfaceValidationPolicy) :
  Outcome Unit := do
  let header := decoded.header
  let declared := header.declaredFileLength.toNat
  let actual := (usizeToU64Saturating bytes.length).toNat
  if decoded.magic != magic then reject (.invalidMagic decoded.magic)
  else if header.formatRevision != currentFormatRevision then
    reject (.unsupportedFormatRevision header.formatRevision)
  else if header.languageRevision != policy.languageRevision then
    reject (.unsupportedLanguageRevision policy.languageRevision header.languageRevision)
  else if decoded.byteOrderMarker != byteOrderMarker then
    reject (.unsupportedByteOrder byteOrderMarker decoded.byteOrderMarker)
  else if header.requiredFlags != noRequiredFlags then
    reject (.unsupportedRequiredFlags header.requiredFlags)
  else if actual < declared then
    let missing ← subtract declared actual
    reject (.truncated .artifact .declaredFileLength actual missing 0)
  else if declared != actual then
    let trailing ← subtract actual declared
    reject (.trailingBytes .artifact declared trailing)
  else if header.directoryLength.toNat % DirectoryEntry.length != 0 then
    malformed .header (.invalidAlignment .directoryLength header.directoryLength.toNat DirectoryEntry.length)
  else return ()

/-! ## 3. The directory -/

/-- `validate_section_contract`. -/
def validateSectionContract (context : InterfaceValidationContext) (tag : Option InterfaceSectionTag)
  (decoded : DirectoryEntry) : Outcome Unit :=
  match InterfaceSectionCompatibility.fromWireValue decoded.rawCompatibility with
  | none =>
    malformed context (.invalidDiscriminant .sectionCompatibility decoded.rawCompatibility.toNat)
  | some compatibility =>
    match tag with
    | none =>
      if compatibility.isOptional then .ok ()
      else malformed context (.invalidDiscriminant .sectionTag decoded.rawTag.toNat)
    | some tag =>
      let encoding := InterfaceSectionEncoding.fromWireValue decoded.rawEncoding
      if compatibility != tag.compatibility then
        malformed context (.valueMismatch .sectionCompatibility tag.compatibility.wireValue.toNat
          decoded.rawCompatibility.toNat)
      else if decoded.sectionRevision != currentSectionRevision then
        if compatibility.isOptional then .ok ()
        else malformed context (.valueMismatch .sectionRevision currentSectionRevision.toNat
          decoded.sectionRevision.toNat)
      else if encoding.isNone then
        if compatibility.isOptional then .ok ()
        else malformed context (.invalidDiscriminant .sectionEncoding decoded.rawEncoding.toNat)
      else if encoding == some .raw && decoded.encodedLength != decoded.decodedLength then
        malformed context (.lengthMismatch .decodedLength decoded.encodedLength.toNat
          decoded.decodedLength.toNat)
      else .ok ()

/-- What the loop over the directory remembers. -/
structure Scan where
  index : Nat
  previousTag : Option UInt32
  previousRange : Option Range
  decodedAllocation : Nat

/-- The scan before the first entry. -/
def Scan.start : Scan := ⟨0, none, none, 0⟩

/-- The payload range that an entry declares. -/
def DirectoryEntry.range (entry : DirectoryEntry) : Range :=
  ⟨entry.offset.toNat, entry.offset.toNat + entry.encodedLength.toNat⟩

def headerRange : Range := ⟨0, InterfaceHeader.length⟩

section Directory

variable (codec : FrameCodec)

/-- The checks of one entry that compare it with the scan and the bytes, up to its payload range. -/
def placeEntry (bytes : List UInt8) (directoryRange : Range) (limits : InterfaceValidationLimits) (scan : Scan)
  (context : InterfaceValidationContext) (decoded : DirectoryEntry) : Outcome (Nat × Range) := do
  rejectIf (scan.previousTag.any fun previous => decoded.rawTag ≤ previous)
    (.malformed context (.orderingViolation .sectionTag (scan.previousTag.getD decoded.rawTag).toNat
      decoded.rawTag.toNat))
  limits.check .recordCount decoded.recordCount.toNat
  let decodedAllocation := scan.decodedAllocation + decoded.decodedLength.toNat
  rejectIf (wordLimit ≤ decodedAllocation)
    (.resourceLimitExceeded .decodedAllocation (wordLimit - 1) (limits.maximum .decodedAllocation).toNat)
  limits.check .decodedAllocation decodedAllocation
  let payloadRange ← mapErr (rangeValidationError context .encodedLength)
    (checkedRange decoded.offset decoded.encodedLength bytes.length)
  rejectIf (rangesOverlap payloadRange headerRange) (overlappingRange context payloadRange headerRange)
  rejectIf (rangesOverlap payloadRange directoryRange)
    (overlappingRange context payloadRange directoryRange)
  rejectIf (scan.previousRange.any (rangesOverlap payloadRange ·))
    (overlappingRange context payloadRange (scan.previousRange.getD payloadRange))
  return (decodedAllocation, payloadRange)

def checkFrame (bytes : List UInt8) (context : InterfaceValidationContext) (entry : DirectoryEntry)
  (payloadRange : Range) : Outcome Unit :=
  if (InterfaceSectionTag.fromWireValue entry.rawTag).isSome && entry.encoding == some .zstdFrame then
    if bytes.length < payloadRange.stop then
      reject (rangeValidationError context .encodedLength (.outOfBounds entry.offset.toNat
        entry.encodedLength.toNat (availableLength entry.offset bytes.length)))
    else
      validateZstdFrame codec context (Lib.slice bytes payloadRange.start payloadRange.stop)
        entry.decodedLength
  else .ok ()

/-- The body of the loop over the directory. -/
def decodeEntry (bytes : List UInt8) (directoryRange : Range) (limits : InterfaceValidationLimits)
  (scan : Scan) (chunk : List UInt8) : Outcome (DirectoryEntry × Scan) := do
  let context := .directoryEntry scan.index (DirectoryEntry.leadingTag chunk)
  let entry ← mapErr (fun error => mapWireError context (directoryField error.offset) error)
    (DirectoryEntry.decode chunk)
  let tag := InterfaceSectionTag.fromWireValue entry.rawTag
  validateSectionContract context tag entry
  let (decodedAllocation, payloadRange) ← placeEntry bytes directoryRange limits scan context entry
  checkFrame codec bytes context entry payloadRange
  return (entry, ⟨scan.index + 1, some entry.rawTag, some payloadRange, decodedAllocation⟩)

/-- The loop over the directory. -/
def decodeEntries (bytes : List UInt8) (directoryRange : Range) (limits : InterfaceValidationLimits) :
  Scan → List (List UInt8) → Outcome (List DirectoryEntry)
  | _, [] => .ok []
  | scan, chunk :: chunks => do
    let (entry, scan) ← decodeEntry codec bytes directoryRange limits scan chunk
    let entries ← decodeEntries bytes directoryRange limits scan chunks
    return entry :: entries

/-- `decode_directory`. -/
def decodeDirectory (bytes : List UInt8) (directoryRange : Range) (policy : InterfaceValidationPolicy) :
  Outcome (List DirectoryEntry) := do
  let directoryLength := (usizeToU64Saturating directoryRange.length).toNat
  policy.limits.check .sectionCount (directoryLength / DirectoryEntry.length)
  let directory ← index bytes directoryRange
  decodeEntries codec bytes directoryRange policy.limits .start (Lib.chunksExact DirectoryEntry.length directory)

end Directory

/-! ## 4. Hashes -/

section Hashes

variable (digest : Digest)

/-- The check of the stored bytes of one section. -/
def validateSectionHash (bytes : List UInt8) (index : Nat) (entry : DirectoryEntry) : Outcome Unit :=
  match entry.payload bytes with
  | none =>
    reject (rangeValidationError (.directoryEntry index entry.rawTag) .encodedLength (.outOfBounds
      entry.offset.toNat entry.encodedLength.toNat (availableLength entry.offset bytes.length)))
  | some payload =>
    let actual := computeSectionHash digest entry payload
    if actual != entry.checksum then
      match entry.tag with
      | some tag => reject (.sectionChecksumMismatch tag entry.checksum actual)
      | none => reject (.unknownSectionChecksumMismatch entry.rawTag entry.checksum actual)
    else .ok ()

/-- The loop over the sections in `validate_hashes`. -/
def validateSectionHashes (bytes : List UInt8) : Nat → List DirectoryEntry → Outcome Unit
  | _, [] => .ok ()
  | index, entry :: entries => do
    validateSectionHash digest bytes index entry
    validateSectionHashes bytes (index + 1) entries

/-- What the known sections contribute to the content hash. -/
def contributions (directory : List DirectoryEntry) : List (InterfaceSectionTag × UInt64 × Hash) :=
  directory.filterMap fun entry => entry.tag.map fun tag => (tag, entry.decodedLength, entry.contentHash)

/-- `validate_hashes`. -/
def validateHashes (header : InterfaceHeader) (directory : List DirectoryEntry) (bytes : List UInt8) :
  Outcome Unit := do
  validateSectionHashes digest bytes 0 directory
  match computeArtifactHash digest bytes with
  | none => reject (.digestUnavailable .artifact .artifactHash)
  | some artifactHash =>
    let contentHash := computeContentHash digest header (contributions directory)
    if artifactHash != header.artifactHash then
      reject (.artifactHashMismatch header.artifactHash artifactHash)
    else if contentHash != header.contentHash then
      reject (.contentHashMismatch header.contentHash contentHash)
    else return ()

end Hashes

/-! ## 5. Validated interfaces -/

/-- `ValidatedPackageInterface`, without the decoded sections that it keeps: they are computed again here. -/
structure ValidatedPackageInterface where
  bytes : List UInt8
  header : InterfaceHeader
  directory : List DirectoryEntry

/-- `ValidatedInterfaceSection`. -/
structure ValidatedInterfaceSection where
  tag : InterfaceSectionTag
  revision : UInt16
  encoding : InterfaceSectionEncoding
  recordCount : UInt64
  checksum : Hash
  bytes : List UInt8

/-- `ValidatedInterfaceSection::new`. -/
def ValidatedInterfaceSection.new (entry : DirectoryEntry) (bytes : List UInt8) :
  Option ValidatedInterfaceSection :=
  match entry.tag, entry.encoding with
  | some tag, some encoding =>
    some ⟨tag, entry.sectionRevision, encoding, entry.recordCount, entry.checksum, bytes⟩
  | _, _ => none

section Interface

variable (digest : Digest) (codec : FrameCodec)

def decodePayload (context : InterfaceValidationContext) (entry : DirectoryEntry) (stored : List UInt8) :
  InterfaceSectionEncoding → Outcome (Option (List UInt8))
  | .raw => .ok none
  | .zstdFrame => do
    let decoded ← decodeZstdFrame codec context stored entry.decodedLength
    return some decoded

/-- `decode_and_verify_section`. -/
def decodeAndVerifySection (index : Nat) (entry : DirectoryEntry) (stored : List UInt8) :
  Outcome (Option (List UInt8)) := do
  let context := .directoryEntry index entry.rawTag
  match entry.encoding with
  | none => malformed context (.invalidDiscriminant .sectionEncoding entry.rawEncoding.toNat)
  | some encoding =>
    let decoded ← decodePayload codec context entry stored encoding
    match entry.tag with
    | none => malformed context (.invalidDiscriminant .sectionTag entry.rawTag.toNat)
    | some tag =>
      let actual := computeSectionContentHash digest tag (decoded.getD stored)
      if actual != entry.contentHash then
        reject (.sectionContentHashMismatch tag entry.contentHash actual)
      else return decoded

namespace ValidatedPackageInterface

/-- `ValidatedPackageInterface::try_new`. -/
def tryNew (bytes : List UInt8) (policy : InterfaceValidationPolicy) :
  Outcome ValidatedPackageInterface := do
  validateFileSize bytes.length policy
  let decoded ← mapErr (fun error => mapWireError .header (headerField error.offset) error)
    (InterfaceHeader.decode bytes)
  validateHeader decoded bytes policy
  let directoryRange ← mapErr (rangeValidationError .directory .directoryLength)
    (checkedRange decoded.header.directoryOffset decoded.header.directoryLength bytes.length)
  let directory ← decodeDirectory codec bytes directoryRange policy
  validateHashes digest decoded.header directory bytes
  return ⟨bytes, decoded.header, directory⟩

/-- `section_by_index`. -/
def sectionByIndex (interface : ValidatedPackageInterface) (index : Nat) :
  Outcome ValidatedInterfaceSection :=
  match interface.directory[index]? with
  | none => malformed .directory (.invalidReference .index index interface.directory.length)
  | some entry =>
    match entry.payload interface.bytes with
    | none =>
      reject (rangeValidationError (.directoryEntry index entry.rawTag) .encodedLength (.outOfBounds
        entry.offset.toNat entry.encodedLength.toNat (availableLength entry.offset interface.bytes.length)))
    | some stored => do
      let decoded ← decodeAndVerifySection digest codec index entry stored
      match ValidatedInterfaceSection.new entry (decoded.getD stored) with
      | none => malformed (.directoryEntry index entry.rawTag) (.invalidValue .sectionEncoding)
      | some found => return found

/-- `section`. The binary search is for the one entry with the tag in a directory in the order of its
tags. -/
def «section» (interface : ValidatedPackageInterface) (tag : InterfaceSectionTag) :
  Outcome (Option ValidatedInterfaceSection) :=
  match interface.directory.findIdx? (·.rawTag == tag.wireValue) with
  | none => .ok none
  | some index =>
    match interface.directory[index]? with
    | none => malformed .directory (.invalidReference .index index 0)
    | some entry =>
      if entry.tag != some tag then .ok none
      else do
        let found ← interface.sectionByIndex digest codec index
        return some found

end ValidatedPackageInterface

end Interface

end Bray.Container
