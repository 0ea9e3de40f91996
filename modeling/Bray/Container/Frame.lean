/-
  File:      Bray/Container/Frame.lean
  Subject:   HASHES AND FRAMES: what the hashes of a container are computed from, and how the payload of a
  section is compressed, checked and decompressed.

  The digest function and the compressor belong to libraries: here they are parameters. A hasher that is
  fed parts one after another digests them in a row. Arithmetic that the code leaves unchecked panics in
  the model where its result does not fit a word.
-/
import Bray.Container.Wire

namespace Bray.Container

open Lib (leBytes)

/-! ## 1. Hashes -/

/-- The digest function. -/
abbrev Digest := List UInt8 → Hash

/-- `CONTENT_HASH_DOMAIN`. -/
def contentHashDomain : List UInt8 := "bray.package-interface.content.v1".toUTF8.toList

/-- `SECTION_CONTENT_HASH_DOMAIN`. -/
def sectionContentHashDomain : List UInt8 := "bray.package-interface.section-content.v1".toUTF8.toList

/-- `SECTION_HASH_DOMAIN`. -/
def sectionHashDomain : List UInt8 := "bray.package-interface.section.v1".toUTF8.toList

/-- The length of a vector as a 64-bit number, the greatest where it does not fit. -/
def usizeToU64Saturating (value : Nat) : UInt64 :=
  if value < wordLimit then UInt64.ofNat value else UInt64.ofNat (wordLimit - 1)

section Hashes

variable (digest : Digest)

/-- `compute_section_hash`. -/
def computeSectionHash (entry : DirectoryEntry) (payload : List UInt8) : Hash :=
  let fields := leBytes 4 entry.rawTag.toNat ++ leBytes 2 entry.sectionRevision.toNat ++
    leBytes 1 entry.rawCompatibility.toNat ++ leBytes 1 entry.rawEncoding.toNat ++
    leBytes 8 entry.recordCount.toNat ++ leBytes 8 entry.encodedLength.toNat ++
    leBytes 8 entry.decodedLength.toNat ++ entry.contentHash.val
  digest (sectionHashDomain ++ fields ++ payload)

/-- `compute_section_content_hash`. -/
def computeSectionContentHash (tag : InterfaceSectionTag) (payload : List UInt8) : Hash :=
  let fields := leBytes 4 tag.wireValue.toNat ++ leBytes 8 (usizeToU64Saturating payload.length).toNat
  digest (sectionContentHashDomain ++ fields ++ payload)

def sectionContribution (contribution : InterfaceSectionTag × UInt64 × Hash) : List UInt8 :=
  let (tag, decodedLength, contentHash) := contribution
  if tag.contributesToContentHash then
    leBytes 4 tag.wireValue.toNat ++ leBytes 8 decodedLength.toNat ++ contentHash.val
  else []

/-- `compute_content_hash`. -/
def computeContentHash (header : InterfaceHeader) (sections : List (InterfaceSectionTag × UInt64 × Hash)) :
  Hash :=
  let fields := leBytes 2 header.formatRevision.toNat ++ leBytes 2 header.languageRevision.toNat ++
    leBytes 8 header.requiredFlags.toNat
  digest (contentHashDomain ++ fields ++ (sections.map sectionContribution).flatten)

/-- `compute_artifact_hash`: the digest of the bytes with the hash field blanked. -/
def computeArtifactHash (bytes : List UInt8) : Option Hash :=
  if InterfaceHeader.artifactHashOffset + 32 ≤ bytes.length then
    some (digest (bytes.take InterfaceHeader.artifactHashOffset ++ Hash.zero.val ++
      bytes.drop (InterfaceHeader.artifactHashOffset + 32)))
  else none

end Hashes

/-! ## 2. Frames -/

/-- What the compression library offers: compressing a payload, the length of the frame that the bytes
start with, the content size that a frame declares, and decompressing up to a capacity. -/
structure FrameCodec where
  compress : List UInt8 → Except InterfaceCompressionFailure (List UInt8)
  frameSize : List UInt8 → Option Nat
  contentSize : List UInt8 → Option (Option UInt64)
  decompress : List UInt8 → Nat → Except InterfaceCompressionFailure (List UInt8)

/-- `MAXIMUM_WINDOW_SIZE`. -/
def maximumWindowSize : Nat := 2 ^ 20

/-- `MINIMUM_COMPRESSION_INPUT`. -/
def minimumCompressionInput : Nat := 1024

/-- `MINIMUM_COMPRESSION_SAVING`. -/
def minimumCompressionSaving : Nat := 64

/-- A failure of the compression library. -/
def compression {α : Type} (context : InterfaceValidationContext) (cause : InterfaceCompressionFailure) :
  Outcome α :=
  reject (.compression context cause)

/-- `a * b` on 64-bit numbers. -/
def multiply (a b : Nat) : Outcome Nat := if a * b < wordLimit then .ok (a * b) else .error .panicked

/-- `a - b` on 64-bit numbers. -/
def subtract (a b : Nat) : Outcome Nat := if b ≤ a then .ok (a - b) else .error .panicked

section Frames

variable (codec : FrameCodec)

/-- `encode_section`. -/
def encodeSection (context : InterfaceValidationContext) (decoded : List UInt8) :
  Outcome (InterfaceSectionEncoding × List UInt8) :=
  if decoded.length < minimumCompressionInput then .ok (.raw, decoded)
  else
    match codec.compress decoded with
    | .error cause => compression context cause
    | .ok compressed =>
      let minimumRawLength := compressed.length + minimumCompressionSaving
      if minimumRawLength < wordLimit && minimumRawLength ≤ decoded.length then .ok (.zstdFrame, compressed)
      else .ok (.raw, decoded)

/-- The window size that a frame header gives, for a frame of the decoded length. -/
def windowSize (context : InterfaceValidationContext) (encoded : List UInt8) (singleSegment : Bool)
  (decodedLength : UInt64) : Outcome Nat := do
  if singleSegment then return decodedLength.toNat
  else
    match encoded[5]? with
    | none => compression context (.missingHeaderByte 5)
    | some windowDescriptor =>
      let exponent := (windowDescriptor >>> 3).toNat
      -- `checked_shl` looks at the number of bits only
      if 10 + exponent < 64 then
        let base := 2 ^ (10 + exponent) % wordLimit
        let extra ← multiply (base / 8) (windowDescriptor &&& 0b0000_0111).toNat
        if base + extra < wordLimit then return base + extra
        else compression context (.windowSizeOverflow windowDescriptor)
      else compression context (.windowSizeOverflow windowDescriptor)

/-- `validate_zstd_frame_header`. -/
def validateZstdFrameHeader (context : InterfaceValidationContext) (encoded : List UInt8)
  (decodedLength : UInt64) : Outcome Unit :=
  match encoded[4]? with
  | none => compression context (.missingHeaderByte 4)
  | some descriptor => do
    let singleSegment := descriptor &&& 0b0010_0000 != 0
    let hasChecksum := descriptor &&& 0b0000_0100 != 0
    let usesDictionary := descriptor &&& 0b0000_0011 != 0
    let usesReservedBits := descriptor &&& 0b0001_1000 != 0
    if !hasChecksum || usesDictionary || usesReservedBits then
      compression context (.invalidHeaderFlags descriptor)
    else
      let size ← windowSize context encoded singleSegment decodedLength
      if maximumWindowSize < size then compression context (.windowSizeExceeded size maximumWindowSize)
      else return ()

/-- `validate_zstd_frame`. -/
def validateZstdFrame (context : InterfaceValidationContext) (encoded : List UInt8)
  (decodedLength : UInt64) : Outcome Unit := do
  match codec.frameSize encoded with
  | none => compression context .frameLength
  | some frameLength =>
    if frameLength != encoded.length then
      compression context (.frameLengthMismatch encoded.length frameLength)
    else
      validateZstdFrameHeader context encoded decodedLength
      match codec.contentSize encoded with
      | none => compression context .contentSize
      | some contentSize =>
        if contentSize != some decodedLength then
          compression context (.contentSizeMismatch decodedLength.toNat (contentSize.map UInt64.toNat))
        else return ()

/-- `decode_zstd_frame`. -/
def decodeZstdFrame (context : InterfaceValidationContext) (encoded : List UInt8) (decodedLength : UInt64) :
  Outcome (List UInt8) :=
  match codec.decompress encoded decodedLength.toNat with
  | .error cause => compression context cause
  | .ok decoded =>
    if decoded.length != decodedLength.toNat then
      compression context (.decodedLengthMismatch decodedLength.toNat decoded.length)
    else .ok decoded

end Frames

/-! ## 3. No panics -/

section Panics

theorem pure_ne_panicked {α : Type} {a : α} : ¬ (pure a : Outcome α) = .error .panicked := by
  intro panics
  cases panics

theorem reject_ne_panicked {α : Type} (error : InterfaceValidationError) :
    (reject error : Outcome α) ≠ .error .panicked := by
  simp [reject]

theorem malformed_ne_panicked {α : Type} (context : InterfaceValidationContext)
    (cause : InterfaceMalformedCause) : (malformed context cause : Outcome α) ≠ .error .panicked := by
  simp [malformed, reject]

theorem compression_ne_panicked {α : Type} (context : InterfaceValidationContext)
    (cause : InterfaceCompressionFailure) : (compression context cause : Outcome α) ≠ .error .panicked := by
  simp [compression, reject]

/-- A base that a shift within a word gives leaves room for its mantissa. -/
theorem multiply_window {exponent mantissa : Nat} (shift : exponent < 32) (small : mantissa < 8) :
    multiply (2 ^ (10 + exponent) % wordLimit / 8) mantissa =
      .ok (2 ^ (10 + exponent) % wordLimit / 8 * mantissa) := by
  have base : 2 ^ (10 + exponent) ≤ 2 ^ 41 := Nat.pow_le_pow_right (by decide) (by omega)
  have reduced : 2 ^ (10 + exponent) % wordLimit ≤ 2 ^ 41 := le_trans (Nat.mod_le _ _) base
  have product : 2 ^ (10 + exponent) % wordLimit / 8 * mantissa ≤ 2 ^ 41 * 8 :=
    Nat.mul_le_mul (le_trans (Nat.div_le_self _ _) reduced) small.le
  have fits : 2 ^ (10 + exponent) % wordLimit / 8 * mantissa < wordLimit :=
    lt_of_le_of_lt product (by decide)
  rw [multiply, if_pos fits]

variable {context : InterfaceValidationContext} {encoded : List UInt8} {decodedLength : UInt64}

theorem windowSize_ne_panicked {singleSegment : Bool} :
    windowSize context encoded singleSegment decodedLength ≠ .error .panicked := by
  unfold windowSize
  split
  · simp [pure, Except.pure]
  split
  · exact compression_ne_panicked _ _
  rename_i windowDescriptor _
  have exponent : (windowDescriptor >>> 3).toNat < 32 := by
    have small := windowDescriptor.toNat_lt
    have shifted : (windowDescriptor >>> 3).toNat = windowDescriptor.toNat / 8 := by
      simp [UInt8.toNat_shiftRight, Nat.shiftRight_eq_div_pow]
    omega
  have mantissa : (windowDescriptor &&& 0b0000_0111).toNat < 8 := by
    exact lt_of_le_of_lt Nat.and_le_right (by decide)
  simp only [multiply_window exponent mantissa, Lib.except_ok_bind]
  split
  · split
    · simp [pure, Except.pure]
    · exact compression_ne_panicked _ _
  · exact compression_ne_panicked _ _

theorem validateZstdFrameHeader_ne_panicked :
    validateZstdFrameHeader context encoded decodedLength ≠ .error .panicked := by
  unfold validateZstdFrameHeader
  split
  · exact compression_ne_panicked _ _
  simp only
  split
  · exact compression_ne_panicked _ _
  intro panics
  obtain panics | ⟨size, _, panics⟩ := Lib.except_bind_eq_error.mp panics
  · exact windowSize_ne_panicked panics
  split at panics
  · exact compression_ne_panicked _ _ panics
  · cases panics

theorem validateZstdFrame_ne_panicked {codec : FrameCodec} :
    validateZstdFrame codec context encoded decodedLength ≠ .error .panicked := by
  unfold validateZstdFrame
  split
  · exact compression_ne_panicked _ _
  split
  · exact compression_ne_panicked _ _
  intro panics
  obtain panics | ⟨_, _, panics⟩ := Lib.except_bind_eq_error.mp panics
  · exact validateZstdFrameHeader_ne_panicked panics
  split at panics
  · exact compression_ne_panicked _ _ panics
  split at panics
  · exact compression_ne_panicked _ _ panics
  · cases panics

theorem decodeZstdFrame_ne_panicked {codec : FrameCodec} :
    decodeZstdFrame codec context encoded decodedLength ≠ .error .panicked := by
  unfold decodeZstdFrame
  split
  · exact compression_ne_panicked _ _
  split
  · exact compression_ne_panicked _ _
  · simp

end Panics

end Bray.Container
