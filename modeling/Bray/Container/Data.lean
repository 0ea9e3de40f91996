/-
  File:      Bray/Container/Data.lean
  Subject:   PACKAGE-INTERFACE CONTAINERS: section tags, headers, directory entries, limits and the errors
  of validation.

  A container is a header, the payloads of its sections, and a directory with one entry a section. Hashes
  are 32 bytes. What the validation returns is a result: it may end with an error, and where the code
  would panic the model says so, since that it never does is something to prove.
-/
import Bray.Lib.Bytes

namespace Bray.Container

/-- Machine words have 64 bits. -/
def wordLimit : Nat := 2 ^ 64

/-! ## 1. Hashes -/

/-- `InterfaceArtifactHash`, `InterfaceContentHash`, `InterfaceSectionHash` and
`InterfaceSectionContentHash`: the 32 bytes of a digest. -/
abbrev Hash := { bytes : List UInt8 // bytes.length = 32 }

/-- Hash fields that are not computed yet. -/
def Hash.zero : Hash := ⟨List.replicate 32 0, List.length_replicate⟩

@[simp] theorem Hash.length_val (hash : Hash) : hash.val.length = 32 := hash.property

/-! ## 2. Sections -/

/-- `InterfaceSectionCompatibility`: what a reader that does not know a section may do. -/
inductive InterfaceSectionCompatibility
  | required
  | discardable
  | preserveOpaque
  deriving DecidableEq

namespace InterfaceSectionCompatibility

def fromWireValue (value : UInt8) : Option InterfaceSectionCompatibility :=
  if value = 0 then some .required
  else if value = 1 then some .discardable
  else if value = 2 then some .preserveOpaque
  else none

def wireValue : InterfaceSectionCompatibility → UInt8
  | .required => 0
  | .discardable => 1
  | .preserveOpaque => 2

def isOptional : InterfaceSectionCompatibility → Bool
  | .required => false
  | .discardable => true
  | .preserveOpaque => true

@[simp] theorem fromWireValue_wireValue (compatibility : InterfaceSectionCompatibility) :
    fromWireValue compatibility.wireValue = some compatibility := by
  cases compatibility <;> decide

end InterfaceSectionCompatibility

/-- `InterfaceSectionEncoding`: how a payload is stored. -/
inductive InterfaceSectionEncoding
  | raw
  | zstdFrame
  deriving DecidableEq

namespace InterfaceSectionEncoding

def fromWireValue (value : UInt8) : Option InterfaceSectionEncoding :=
  if value = 0 then some .raw else if value = 1 then some .zstdFrame else none

def wireValue : InterfaceSectionEncoding → UInt8
  | .raw => 0
  | .zstdFrame => 1

@[simp] theorem fromWireValue_wireValue (encoding : InterfaceSectionEncoding) :
    fromWireValue encoding.wireValue = some encoding := by
  cases encoding <;> decide

end InterfaceSectionEncoding

/-- `InterfaceSectionTag`: the known categories of sections. -/
inductive InterfaceSectionTag
  | strings
  | packageMetadata
  | dependencies
  | symbolIdentities
  | relationships
  | exportedLookup
  | semanticRecordDirectory
  | semanticTypes
  | constants
  | contracts
  | declarationTemplates
  | implementations
  | targetDependencies
  | sourceProvenance
  | supportGraph
  | declarationSemantics
  deriving DecidableEq

namespace InterfaceSectionTag

/-- `InterfaceSectionTag::ALL`. -/
def all : List InterfaceSectionTag :=
  [.strings, .packageMetadata, .dependencies, .symbolIdentities, .relationships, .exportedLookup,
    .semanticRecordDirectory, .semanticTypes, .constants, .contracts, .declarationTemplates, .implementations,
    .targetDependencies, .sourceProvenance, .supportGraph, .declarationSemantics]

def wireValue : InterfaceSectionTag → UInt32
  | .strings => 1
  | .packageMetadata => 2
  | .dependencies => 3
  | .symbolIdentities => 4
  | .relationships => 5
  | .exportedLookup => 6
  | .semanticRecordDirectory => 7
  | .semanticTypes => 8
  | .constants => 9
  | .contracts => 10
  | .declarationTemplates => 11
  | .implementations => 12
  | .targetDependencies => 13
  | .sourceProvenance => 14
  | .supportGraph => 15
  | .declarationSemantics => 16

def fromWireValue (value : UInt32) : Option InterfaceSectionTag := all.find? (·.wireValue == value)

def contributesToContentHash (tag : InterfaceSectionTag) : Bool := tag != .sourceProvenance

def compatibility : InterfaceSectionTag → InterfaceSectionCompatibility
  | .sourceProvenance => .discardable
  | _ => .required

@[simp] theorem fromWireValue_wireValue (tag : InterfaceSectionTag) : fromWireValue tag.wireValue = some tag := by
  cases tag <;> decide

end InterfaceSectionTag

/-- `InterfaceSectionRevision::CURRENT`. -/
def currentSectionRevision : UInt16 := 1

/-! ## 3. Header and directory -/

/-- `CURRENT_FORMAT_REVISION`. -/
def currentFormatRevision : UInt16 := 1

/-- `BYTE_ORDER_MARKER`. -/
def byteOrderMarker : UInt32 := 0x01020304

/-- `MAGIC`: `BRAYI`, a zero byte, and a line end. -/
def magic : List UInt8 := [66, 82, 65, 89, 73, 0, 13, 10]

theorem length_magic : magic.length = 8 := rfl

/-- `InterfaceRequiredFlags::NONE`. -/
def noRequiredFlags : UInt64 := 0

/-- `InterfaceHeader`. -/
structure InterfaceHeader where
  formatRevision : UInt16
  languageRevision : UInt16
  requiredFlags : UInt64
  declaredFileLength : UInt64
  directoryOffset : UInt64
  directoryLength : UInt64
  contentHash : Hash
  artifactHash : Hash

/-- `InterfaceHeader::LENGTH`. -/
def InterfaceHeader.length : Nat := 112

/-- `InterfaceHeader::CONTENT_HASH_OFFSET`. -/
def InterfaceHeader.contentHashOffset : Nat := 48

/-- `InterfaceHeader::ARTIFACT_HASH_OFFSET`. -/
def InterfaceHeader.artifactHashOffset : Nat := 80

/-- `DecodedHeader`: the header with the fields that are only checked. -/
structure DecodedHeader where
  magic : List UInt8
  byteOrderMarker : UInt32
  header : InterfaceHeader

/-- `DirectoryEntry`. -/
structure DirectoryEntry where
  rawTag : UInt32
  sectionRevision : UInt16
  rawCompatibility : UInt8
  rawEncoding : UInt8
  offset : UInt64
  encodedLength : UInt64
  decodedLength : UInt64
  recordCount : UInt64
  checksum : Hash
  contentHash : Hash

namespace DirectoryEntry

/-- `DirectoryEntry::LENGTH`. -/
def length : Nat := 104

def encoding (entry : DirectoryEntry) : Option InterfaceSectionEncoding :=
  InterfaceSectionEncoding.fromWireValue entry.rawEncoding

/-- The known tag of an entry of the current revision. -/
def tag (entry : DirectoryEntry) : Option InterfaceSectionTag :=
  match InterfaceSectionTag.fromWireValue entry.rawTag with
  | none => none
  | some tag =>
    if entry.sectionRevision != currentSectionRevision || entry.rawCompatibility != tag.compatibility.wireValue
      || entry.encoding.isNone then none
    else some tag

/-- `DirectoryEntry::for_encoded`. -/
def forEncoded (tag : InterfaceSectionTag) (encoding : InterfaceSectionEncoding)
  (offset encodedLength decodedLength recordCount : UInt64) (checksum contentHash : Hash) :
  DirectoryEntry where
  rawTag := tag.wireValue
  sectionRevision := currentSectionRevision
  rawCompatibility := tag.compatibility.wireValue
  rawEncoding := encoding.wireValue
  offset := offset
  encodedLength := encodedLength
  decodedLength := decodedLength
  recordCount := recordCount
  checksum := checksum
  contentHash := contentHash

/-- The stored payload, where the range lies inside the bytes. -/
def payload (entry : DirectoryEntry) (bytes : List UInt8) : Option (List UInt8) :=
  let start := entry.offset.toNat
  let stop := start + entry.encodedLength.toNat
  if stop < wordLimit then
    if stop ≤ bytes.length then some (Lib.slice bytes start stop) else none
  else none

end DirectoryEntry

/-! ## 4. Errors -/

/-- `InterfaceValidationContext`: where the validation stands. -/
inductive InterfaceValidationContext
  | artifact
  | header
  | directory
  | directoryEntry (index : Nat) (rawTag : UInt32)
  | container (tag : InterfaceSectionTag)

/-- `InterfaceValidationField`, of the fields of a container. -/
inductive InterfaceValidationField
  | magic
  | formatRevision
  | languageRevision
  | byteOrderMarker
  | requiredFlags
  | declaredFileLength
  | directoryOffset
  | directoryLength
  | contentHash
  | artifactHash
  | sectionTag
  | sectionRevision
  | sectionCompatibility
  | sectionEncoding
  | sectionOffset
  | encodedLength
  | decodedLength
  | recordCount
  | hash
  | index
  | value

/-- `InterfaceIntegerTarget`, of the targets in a container. -/
inductive InterfaceIntegerTarget
  | u64

/-- `InterfaceMalformedCause`, of the causes in a container. -/
inductive InterfaceMalformedCause
  | invalidValue (field : InterfaceValidationField)
  | invalidDiscriminant (field : InterfaceValidationField) (actual : Nat)
  | valueMismatch (field : InterfaceValidationField) (expected actual : Nat)
  | invalidReference (field : InterfaceValidationField) (index available : Nat)
  | orderingViolation (field : InterfaceValidationField) (previous actual : Nat)
  | numericOverflow (field : InterfaceValidationField) (value : Nat) (target : InterfaceIntegerTarget)
  | invalidAlignment (field : InterfaceValidationField) (value alignment : Nat)
  | rangeOverflow (offset length : Nat)
  | rangeOverlap (offset length conflictingOffset conflictingLength : Nat)
  | lengthMismatch (field : InterfaceValidationField) (expected actual : Nat)

/-- `InterfaceCompressionFailure`. -/
inductive InterfaceCompressionFailure
  | encoderInitialization
  | encoderConfiguration
  | encoding
  | frameLength
  | frameLengthMismatch (expected actual : Nat)
  | contentSize
  | contentSizeMismatch (expected : Nat) (actual : Option Nat)
  | missingHeaderByte (offset : Nat)
  | invalidHeaderFlags (descriptor : UInt8)
  | windowSizeOverflow (descriptor : UInt8)
  | windowSizeExceeded (actual maximum : Nat)
  | decoderInitialization
  | decoderConfiguration
  | decoding
  | decodedLengthMismatch (expected actual : Nat)

/-- `InterfaceLimit`, of the limits that a container is checked against. -/
inductive InterfaceLimit
  | fileSize
  | sectionCount
  | recordCount
  | decodedAllocation

/-- `InterfaceValidationError`, of the errors in a container. -/
inductive InterfaceValidationError
  | invalidMagic (actual : List UInt8)
  | unsupportedFormatRevision (actual : UInt16)
  | unsupportedLanguageRevision (expected actual : UInt16)
  | unsupportedByteOrder (expected actual : UInt32)
  | unsupportedRequiredFlags (actual : UInt64)
  | truncated (context : InterfaceValidationContext) (field : InterfaceValidationField)
    (offset expectedLength actualLength : Nat)
  | trailingBytes (context : InterfaceValidationContext) (offset count : Nat)
  | malformed (context : InterfaceValidationContext) (cause : InterfaceMalformedCause)
  | compression (context : InterfaceValidationContext) (cause : InterfaceCompressionFailure)
  | digestUnavailable (context : InterfaceValidationContext) (field : InterfaceValidationField)
  | artifactHashMismatch (expected actual : Hash)
  | contentHashMismatch (expected actual : Hash)
  | sectionChecksumMismatch (tag : InterfaceSectionTag) (expected actual : Hash)
  | unknownSectionChecksumMismatch (rawTag : UInt32) (expected actual : Hash)
  | sectionContentHashMismatch (tag : InterfaceSectionTag) (expected actual : Hash)
  | resourceLimitExceeded (limit : InterfaceLimit) (actual maximum : Nat)

/-- How a validation ends without a result: with an error, or where the code would panic. -/
inductive Failure
  | error (error : InterfaceValidationError)
  | panicked

/-- What a step of the validation returns. -/
abbrev Outcome (α : Type) := Except Failure α

def reject {α : Type} (error : InterfaceValidationError) : Outcome α := .error (.error error)

/-- A validation that returns `malformed`. -/
def malformed {α : Type} (context : InterfaceValidationContext) (cause : InterfaceMalformedCause) : Outcome α :=
  reject (.malformed context cause)

/-! ## 5. Limits -/

/-- `InterfaceValidationLimits`, of the limits that a container is checked against. -/
structure InterfaceValidationLimits where
  fileSize : UInt64
  sectionCount : UInt64
  recordsPerSection : UInt64
  decodedAllocation : UInt64

namespace InterfaceValidationLimits

def maximum (limits : InterfaceValidationLimits) : InterfaceLimit → UInt64
  | .fileSize => limits.fileSize
  | .sectionCount => limits.sectionCount
  | .recordCount => limits.recordsPerSection
  | .decodedAllocation => limits.decodedAllocation

/-- `InterfaceValidationLimits::check`. -/
def check (limits : InterfaceValidationLimits) (limit : InterfaceLimit) (actual : Nat) : Outcome Unit :=
  if (limits.maximum limit).toNat < actual then
    reject (.resourceLimitExceeded limit actual (limits.maximum limit).toNat)
  else .ok ()

/-- `InterfaceValidationLimits::DEFAULT`. -/
def default : InterfaceValidationLimits where
  fileSize := 256 * 1024 * 1024
  sectionCount := 64
  recordsPerSection := 10000000
  decodedAllocation := 512 * 1024 * 1024

end InterfaceValidationLimits

/-- `InterfaceValidationPolicy`. -/
structure InterfaceValidationPolicy where
  languageRevision : UInt16
  limits : InterfaceValidationLimits

end Bray.Container
