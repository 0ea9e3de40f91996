/-
  File:      Bray/Container/RoundTrip.lean
  Subject:   THE ROUND TRIP: what `assemble_sections` writes is accepted, and every section is found again.

  A stored section stands for a decoded one: its payload is the decoded one, or a valid frame that decodes
  to it. The writer's directory gives each payload the range behind the payloads before it, so that its
  entries fit, and looking up a tag returns the decoded payload. The content hash is one of the decoded
  sections alone.
-/
import Bray.Container.Assemble
import Mathlib.Algebra.Order.BigOperators.Group.List

namespace Bray.Container

open List

open Lib (leBytes except_bind_eq_ok except_ok_bind)

/-! ## 1. Storing a section -/

/-- What the compression library documents about the frames of a compressor with a checksum, a content
size, no dictionary and the window of `MAXIMUM_WINDOW_LOG`: the frames are complete, their headers say so,
and decompressing inverts compressing. -/
structure FrameCodec.Faithful (codec : FrameCodec) : Prop where
  compresses : ∀ decoded, ∃ frame, codec.compress decoded = .ok frame
  frameSize : ∀ decoded frame, codec.compress decoded = .ok frame → codec.frameSize frame = some frame.length
  descriptor : ∀ decoded frame, codec.compress decoded = .ok frame → ∃ descriptor : UInt8,
    frame[4]? = some descriptor ∧ descriptor &&& 0b0000_0100 ≠ 0 ∧ descriptor &&& 0b0000_0011 = 0 ∧
      descriptor &&& 0b0001_1000 = 0 ∧
      if descriptor &&& 0b0010_0000 = 0 then ∃ window : UInt8, frame[5]? = some window ∧
        2 ^ (10 + (window >>> 3).toNat) + 2 ^ (10 + (window >>> 3).toNat) / 8 *
          (window &&& 0b0000_0111).toNat ≤ maximumWindowSize
      else decoded.length ≤ maximumWindowSize
  contentSize : ∀ decoded frame, decoded.length < wordLimit → codec.compress decoded = .ok frame →
    codec.contentSize frame = some (some (UInt64.ofNat decoded.length))
  decompress : ∀ decoded frame, codec.compress decoded = .ok frame →
    codec.decompress frame decoded.length = .ok decoded

theorem toNat_ofNat_word {value : Nat} (fits : value < wordLimit) : (UInt64.ofNat value).toNat = value :=
  UInt64.toNat_ofNat_of_lt' fits

/-- The frame that a faithful library makes of a payload. -/
structure ValidFrame (codec : FrameCodec) (frame decoded : List UInt8) (decodedLength : UInt64) : Prop where
  valid : ∀ context, validateZstdFrame codec context frame decodedLength = .ok ()
  decodes : ∀ context, decodeZstdFrame codec context frame decodedLength = .ok decoded

section Frames

variable {codec : FrameCodec} {decoded frame : List UInt8}

/-- The window of a valid descriptor is computed without overflow. -/
theorem windowSize_eq_ok {context : InterfaceValidationContext} {window : UInt8} {decodedLength : UInt64}
    (found : frame[5]? = some window)
    (small : 2 ^ (10 + (window >>> 3).toNat) + 2 ^ (10 + (window >>> 3).toNat) / 8 *
      (window &&& 0b0000_0111).toNat ≤ maximumWindowSize) : windowSize context frame false decodedLength =
      .ok (2 ^ (10 + (window >>> 3).toNat) + 2 ^ (10 + (window >>> 3).toNat) / 8 *
        (window &&& 0b0000_0111).toNat) := by
  have limit : maximumWindowSize < wordLimit := by decide
  have base : 2 ^ (10 + (window >>> 3).toNat) < wordLimit :=
    lt_of_le_of_lt (le_trans (Nat.le_add_right _ _) small) limit
  have exponent : 10 + (window >>> 3).toNat < 64 := (Nat.pow_lt_pow_iff_right (by decide)).mp base
  have product : 2 ^ (10 + (window >>> 3).toNat) / 8 * (window &&& 0b0000_0111).toNat < wordLimit :=
    lt_of_le_of_lt (le_trans (Nat.le_add_left _ _) small) limit
  rw [windowSize, if_neg (by decide)]
  simp only [found, if_pos exponent, Nat.mod_eq_of_lt base, multiply, if_pos product, except_ok_bind,
    if_pos (lt_of_le_of_lt small limit)]
  rfl

theorem FrameCodec.Faithful.validFrame (faithful : codec.Faithful) (fits : decoded.length < wordLimit)
    (compressed : codec.compress decoded = .ok frame) :
    ValidFrame codec frame decoded (UInt64.ofNat decoded.length) := by
  obtain ⟨descriptor, found, checksum, dictionary, reserved, window⟩ :=
    faithful.descriptor decoded frame compressed
  have header : ∀ context, validateZstdFrameHeader context frame (UInt64.ofNat decoded.length) = .ok () := by
    intro context
    have size : ∃ size, windowSize context frame (descriptor &&& 0b0010_0000 != 0)
      (UInt64.ofNat decoded.length) = .ok size ∧ ¬ maximumWindowSize < size := by
      by_cases single : descriptor &&& 0b0010_0000 = 0
      · rw [if_pos single] at window
        obtain ⟨byte, there, small⟩ := window
        have plain : (descriptor &&& 0b0010_0000 != 0) = false := by simp [single]
        rw [plain]
        exact ⟨_, windowSize_eq_ok there small, not_lt.mpr small⟩
      · rw [if_neg single] at window
        have flagged : (descriptor &&& 0b0010_0000 != 0) = true := by simp [single]
        rw [flagged]
        refine ⟨_, rfl, ?_⟩
        rw [toNat_ofNat_word fits]
        exact not_lt.mpr window
    obtain ⟨size, computed, small⟩ := size
    simp only [validateZstdFrameHeader, found, dictionary, reserved, computed, bne_self_eq_false,
      Bool.or_false, except_ok_bind, if_neg small]
    rw [if_neg (by simp [checksum])]
    rfl
  constructor
  · intro context
    simp only [validateZstdFrame, faithful.frameSize decoded frame compressed, bne_self_eq_false,
      Bool.false_eq_true, if_false, header context, except_ok_bind,
      faithful.contentSize decoded frame fits compressed]
    rfl
  · intro context
    simp only [decodeZstdFrame, toNat_ofNat_word fits, faithful.decompress decoded frame compressed,
      bne_self_eq_false, Bool.false_eq_true, if_false]

end Frames

/-- A stored section stands for a decoded one, raw or as a valid frame. -/
structure Stores (digest : Digest) (codec : FrameCodec) (decoded : EncodedArtifactSection)
  (stored : StoredArtifactSection) : Prop where
  tag : stored.tag = decoded.tag
  recordCount : stored.recordCount = decoded.recordCount
  decodedLength : stored.decodedLength.toNat = decoded.payload.length
  contentHash : stored.contentHash = computeSectionContentHash digest decoded.tag decoded.payload
  payload : stored.encoding = .raw ∧ stored.payload = decoded.payload ∨
    stored.encoding = .zstdFrame ∧ ValidFrame codec stored.payload decoded.payload stored.decodedLength

def storedLength (codec : FrameCodec) (decoded : EncodedArtifactSection) : Nat :=
  match encodeSection codec (.container decoded.tag) decoded.payload with
  | .ok (_, payload) => payload.length
  | .error _ => 0

section Store

variable {digest : Digest} {codec : FrameCodec}

variable (digest) in
/-- **One section is stored** faithfully. -/
theorem tryFromDecoded_eq_ok (faithful : codec.Faithful) {decoded : EncodedArtifactSection}
    (fits : decoded.payload.length < wordLimit) :
    ∃ stored, StoredArtifactSection.tryFromDecoded digest codec decoded = .ok stored ∧
      Stores digest codec decoded stored ∧ stored.payload.length = storedLength codec decoded := by
  obtain ⟨frame, compressed⟩ := faithful.compresses decoded.payload
  have encoded : ∃ encoding payload,
    encodeSection codec (.container decoded.tag) decoded.payload = .ok (encoding, payload) ∧
      (encoding = .raw ∧ payload = decoded.payload ∨ encoding = .zstdFrame ∧
          ValidFrame codec payload decoded.payload (UInt64.ofNat decoded.payload.length)) := by
    unfold encodeSection
    split
    · exact ⟨.raw, decoded.payload, rfl, .inl ⟨rfl, rfl⟩⟩
    simp only [compressed]
    split
    · exact ⟨.zstdFrame, frame, rfl, .inr ⟨rfl, faithful.validFrame fits compressed⟩⟩
    · exact ⟨.raw, decoded.payload, rfl, .inl ⟨rfl, rfl⟩⟩
  obtain ⟨encoding, payload, encoded, form⟩ := encoded
  refine ⟨⟨decoded.tag, encoding, UInt64.ofNat decoded.payload.length, decoded.recordCount,
    computeSectionContentHash digest decoded.tag decoded.payload, payload⟩, ?_, ?_, ?_⟩
  · simp only [StoredArtifactSection.tryFromDecoded, usizeToU64, if_pos fits, except_ok_bind, encoded]
    rfl
  · exact ⟨rfl, rfl, toNat_ofNat_word fits, rfl, form⟩
  · simp only [storedLength, encoded]

variable (digest) in
theorem storeSections_eq_ok (faithful : codec.Faithful) {sections : List EncodedArtifactSection}
    (fits : ∀ decoded ∈ sections, decoded.payload.length < wordLimit) :
    ∃ stored, storeSections digest codec sections = .ok stored ∧
      List.Forall₂ (Stores digest codec) sections stored ∧
      (stored.map fun part => part.payload.length) = sections.map (storedLength codec) := by
  induction sections with
  | nil => exact ⟨[], rfl, List.Forall₂.nil, rfl⟩
  | cons decoded sections ih =>
    obtain ⟨first, done, stores, length⟩ := tryFromDecoded_eq_ok digest faithful
      (fits decoded (.head _))
    obtain ⟨others, rest, all, lengths⟩ := ih fun other member => fits other (.tail _ member)
    refine ⟨first :: others, ?_, List.Forall₂.cons stores all, ?_⟩
    · simp only [storeSections, done, rest, except_ok_bind]
      rfl
    · rw [map_cons, map_cons, length, lengths]

end Store

/-! ## 2. The layout of the payloads -/

/-- The entry of a stored section whose payload starts at an offset. -/
def entryAt (digest : Digest) (offset : Nat) (stored : StoredArtifactSection) : DirectoryEntry :=
  let withChecksum := DirectoryEntry.forEncoded stored.tag stored.encoding (UInt64.ofNat offset)
    (UInt64.ofNat stored.payload.length) stored.decodedLength stored.recordCount
  withChecksum (computeSectionHash digest (withChecksum .zero stored.contentHash) stored.payload)
    stored.contentHash

/-- The entries of sections whose payloads stand one after another from an offset. -/
def layout (digest : Digest) : Nat → List StoredArtifactSection → List DirectoryEntry
  | _, [] => []
  | offset, stored :: rest => entryAt digest offset stored :: layout digest (offset + stored.payload.length) rest

/-- The payloads one after another. -/
def payloads (stored : List StoredArtifactSection) : List UInt8 := (stored.map (·.payload)).flatten

@[simp] theorem payloads_cons (stored : StoredArtifactSection) (rest : List StoredArtifactSection) :
  payloads (stored :: rest) = stored.payload ++ payloads rest := rfl

theorem length_payloads (stored : List StoredArtifactSection) :
    (payloads stored).length = (stored.map fun part => part.payload.length).sum := by
  simp [payloads, Function.comp_def]

@[simp] theorem tag_forEncoded (tag : InterfaceSectionTag) (encoding : InterfaceSectionEncoding)
    (offset encodedLength decodedLength recordCount : UInt64) (checksum contentHash : Hash) :
    (DirectoryEntry.forEncoded tag encoding offset encodedLength decodedLength recordCount checksum
      contentHash).tag = some tag := by
  simp [DirectoryEntry.tag, DirectoryEntry.forEncoded, DirectoryEntry.encoding]

section Layout

variable {digest : Digest} {codec : FrameCodec} {stored : StoredArtifactSection}
  {parts : List StoredArtifactSection} {offset : Nat}

@[simp] theorem tag_entryAt : (entryAt digest offset stored).tag = some stored.tag :=
  tag_forEncoded _ _ _ _ _ _ _ _

@[simp] theorem encoding_entryAt : (entryAt digest offset stored).encoding = some stored.encoding :=
  InterfaceSectionEncoding.fromWireValue_wireValue stored.encoding

variable (digest) in
theorem range_entryAt (fits : offset + stored.payload.length < wordLimit) :
    (entryAt digest offset stored).range = ⟨offset, offset + stored.payload.length⟩ := by
  have first := toNat_ofNat_word (lt_of_le_of_lt (Nat.le_add_right _ _) fits)
  have second := toNat_ofNat_word (lt_of_le_of_lt (Nat.le_add_left _ _) fits)
  simp only [DirectoryEntry.range, entryAt, DirectoryEntry.forEncoded, first, second]

/-- The loop of the writer makes the entries of the layout. -/
theorem placeSections_eq_ok (fits : offset + (payloads parts).length < wordLimit) :
    placeSections digest offset parts = .ok (layout digest offset parts, payloads parts) := by
  induction parts generalizing offset with
  | nil => rfl
  | cons stored parts ih =>
    rw [payloads_cons, length_append, ← Nat.add_assoc] at fits
    have next : offset + stored.payload.length < wordLimit := lt_of_le_of_lt (Nat.le_add_right _ _) fits
    have first : offset < wordLimit := lt_of_le_of_lt (Nat.le_add_right _ _) next
    have length : stored.payload.length < wordLimit := lt_of_le_of_lt (Nat.le_add_left _ _) next
    simp only [placeSections, encodedDirectoryEntry, usizeToU64, if_pos first, if_pos length, except_ok_bind,
      checked, if_pos next, pure_bind, ih fits]
    rfl

theorem contributions_layout : contributions (layout digest offset parts) =
    parts.map fun stored => (stored.tag, stored.decodedLength, stored.contentHash) := by
  induction parts generalizing offset with
  | nil => rfl
  | cons stored parts ih =>
    have rest := @ih (offset + stored.payload.length)
    rw [layout, contributions, filterMap_cons, tag_entryAt, map_cons, ← rest]
    rfl

/-- The entry is that of a stored section that stands for a decoded one, and its payload is in the bytes. -/
def Keeps (digest : Digest) (codec : FrameCodec) (bytes : List UInt8) (decoded : EncodedArtifactSection)
  (entry : DirectoryEntry) : Prop :=
  ∃ stored place, Stores digest codec decoded stored ∧ entry = entryAt digest place stored ∧
    entry.payload bytes = some stored.payload

/-- **The payloads stand where the entries of the layout say.** -/
theorem keeps_layout {sections : List EncodedArtifactSection}
    (stores : List.Forall₂ (Stores digest codec) sections parts) (before after : List UInt8)
    (position : before.length = offset) (fits : offset + (payloads parts).length < wordLimit) :
    List.Forall₂ (Keeps digest codec (before ++ (payloads parts ++ after))) sections
      (layout digest offset parts) := by
  induction stores generalizing before offset with
  | nil => exact List.Forall₂.nil
  | @cons decoded stored sections parts first _ ih =>
    rw [payloads_cons, length_append, ← Nat.add_assoc] at fits
    have next : offset + stored.payload.length < wordLimit := lt_of_le_of_lt (Nat.le_add_right _ _) fits
    have range := range_entryAt digest next
    have regroup : before ++ (payloads (stored :: parts) ++ after) =
      (before ++ stored.payload) ++ (payloads parts ++ after) := by
      simp
    have rest := ih (before ++ stored.payload) (by rw [length_append, position]) fits
    rw [← regroup] at rest
    refine List.Forall₂.cons ⟨stored, offset, first, rfl, ?_⟩ rest
    have inside : (entryAt digest offset stored).range.stop ≤
      (before ++ (payloads (stored :: parts) ++ after)).length := by
      rw [range, payloads_cons]
      simp only [length_append]
      omega
    have word : (entryAt digest offset stored).range.stop < wordLimit := by
      rw [range]
      exact next
    rw [payload_eq_some word inside, range, payloads_cons, append_assoc]
    exact congrArg some (Lib.slice_between before stored.payload _ position (by rw [position]))

/-- The entry of a payload that stays clear of the header, the directory and the payload before it fits. -/
theorem fits_entryAt {bytes : List UInt8} {directoryRange : Range} {limits : InterfaceValidationLimits}
    {scan : Scan} (inside : offset + stored.payload.length ≤ bytes.length) (word : bytes.length < wordLimit)
    (tag : ∀ previous, scan.previousTag = some previous → previous < stored.tag.wireValue)
    (records : stored.recordCount.toNat ≤ limits.recordsPerSection.toNat)
    (allocation : scan.decodedAllocation + stored.decodedLength.toNat ≤ limits.decodedAllocation.toNat)
    (front : InterfaceHeader.length ≤ offset) (back : offset + stored.payload.length ≤ directoryRange.start)
    (range : ∀ previous, scan.previousRange = some previous →
      offset + stored.payload.length ≤ previous.start ∨ previous.stop ≤ offset) :
    Fits bytes directoryRange limits scan (entryAt digest offset stored) := by
  have stop : offset + stored.payload.length < wordLimit := lt_of_le_of_lt inside word
  have own := range_entryAt digest stop
  constructor
  · exact tag
  · exact records
  · exact lt_of_le_of_lt allocation limits.decodedAllocation.toNat_lt
  · exact allocation
  · rw [own]
    exact stop
  · rw [own]
    exact inside
  · rw [own]
    exact rangesOverlap_of_le (.inr front)
  · rw [own]
    exact rangesOverlap_of_le (.inl back)
  · intro previous known
    rw [own]
    exact rangesOverlap_of_le (range previous known)

/-- **The entries of the layout fit** between the header and the directory. -/
theorem follows_layout {bytes : List UInt8} {directoryRange : Range} {limits : InterfaceValidationLimits}
    {scan : Scan} (front : InterfaceHeader.length ≤ offset)
    (back : offset + (payloads parts).length ≤ directoryRange.start)
    (inside : directoryRange.start ≤ bytes.length) (word : bytes.length < wordLimit)
    (range : ∀ previous, scan.previousRange = some previous → previous.stop ≤ offset)
    (tag : ∀ previous, scan.previousTag = some previous → ∀ stored ∈ parts, previous < stored.tag.wireValue)
    (ascending : parts.Pairwise fun left right => left.tag.wireValue < right.tag.wireValue)
    (records : ∀ stored ∈ parts, stored.recordCount.toNat ≤ limits.recordsPerSection.toNat)
    (allocation : scan.decodedAllocation + (parts.map fun stored => stored.decodedLength.toNat).sum ≤
      limits.decodedAllocation.toNat) : Follows bytes directoryRange limits scan (layout digest offset parts) := by
  induction parts generalizing offset scan with
  | nil => trivial
  | cons stored parts ih =>
    rw [payloads_cons, length_append, ← Nat.add_assoc] at back
    simp only [map_cons, sum_cons] at allocation
    have stop : offset + stored.payload.length ≤ directoryRange.start :=
      le_trans (Nat.le_add_right _ _) back
    have own := range_entryAt digest (lt_of_le_of_lt (le_trans stop inside) word)
    refine ⟨fits_entryAt (le_trans stop inside) word ?_ (records stored (.head _)) ?_ front stop ?_,
      ih ?_ back ?_ ?_ ?_ ?_ ?_⟩
    · intro previous known
      exact tag previous known stored (.head _)
    · omega
    · intro previous known
      exact .inr (range previous known)
    · exact le_trans front (Nat.le_add_right _ _)
    · intro previous known
      cases known
      rw [own]
    · intro previous known other member
      cases known
      exact (pairwise_cons.mp ascending).1 other member
    · exact (pairwise_cons.mp ascending).2
    · intro other member
      exact records other (mem_cons_of_mem stored member)
    · change scan.decodedAllocation + stored.decodedLength.toNat + _ ≤ _
      omega

end Layout

/-! ## 3. The written container -/

def fileLength (parts : List StoredArtifactSection) : Nat :=
  InterfaceHeader.length + (payloads parts).length + parts.length * DirectoryEntry.length

/-- The header that the writer starts with. -/
def writtenHeader (languageRevision : UInt16) (parts : List StoredArtifactSection) : InterfaceHeader where
  formatRevision := currentFormatRevision
  languageRevision := languageRevision
  requiredFlags := noRequiredFlags
  declaredFileLength := UInt64.ofNat (fileLength parts)
  directoryOffset := UInt64.ofNat (InterfaceHeader.length + (payloads parts).length)
  directoryLength := UInt64.ofNat (parts.length * DirectoryEntry.length)
  contentHash := .zero
  artifactHash := .zero

section Written

variable {digest : Digest} {codec : FrameCodec} {languageRevision : UInt16}
  {sections : List EncodedArtifactSection} {parts : List StoredArtifactSection}

@[simp] theorem length_layout {offset : Nat} : (layout digest offset parts).length = parts.length := by
  induction parts generalizing offset with
  | nil => rfl
  | cons stored parts ih => rw [layout, length_cons, length_cons, ih]

/-- The bytes that the writer makes of stored sections. -/
def writtenBytes (digest : Digest) (languageRevision : UInt16) (parts : List StoredArtifactSection) :
  List UInt8 :=
  sealedBytes digest (writtenHeader languageRevision parts) (payloads parts)
    (layout digest InterfaceHeader.length parts)

variable (digest languageRevision) in
/-- **The writer makes a sealed container** of stored sections that fit a file. -/
theorem assembleStoredSections_eq_ok {Identity : Type} (identity : Identity)
    (fits : fileLength parts < wordLimit) : ∃ artifact : InterfaceArtifact Identity,
      assembleStoredSections digest parts identity languageRevision = .ok artifact ∧
      artifact.bytes = writtenBytes digest languageRevision parts ∧
      artifact.contentHash = computeContentHash digest (writtenHeader languageRevision parts)
        (parts.map fun stored => (stored.tag, stored.decodedLength, stored.contentHash)) := by
  have directory : parts.length * DirectoryEntry.length < wordLimit :=
    lt_of_le_of_lt (Nat.le_add_left _ _) fits
  have front : InterfaceHeader.length + (payloads parts).length < wordLimit :=
    lt_of_le_of_lt (Nat.le_add_right _ _) fits
  have small : ¬ wordLimit ≤ (payloads parts).length := by omega
  have count : (layout digest InterfaceHeader.length parts).length < wordLimit := by
    rw [length_layout]
    exact lt_of_le_of_lt (Nat.le_mul_of_pos_right _ (by decide)) directory
  have length : (behindHeader (payloads parts) (layout digest InterfaceHeader.length parts)).length =
    (payloads parts).length + parts.length * DirectoryEntry.length := by
    rw [length_behindHeader, length_layout]
  have word : InterfaceHeader.length +
    (behindHeader (payloads parts) (layout digest InterfaceHeader.length parts)).length < wordLimit := by
    rw [length, ← Nat.add_assoc]
    exact fits
  have finished := finishHashes_eq digest identity (writtenHeader languageRevision parts)
    (layout digest InterfaceHeader.length parts)
    (behindHeader (payloads parts) (layout digest InterfaceHeader.length parts)) word count
  let done := (writtenHeader languageRevision parts).sealed digest
    (layout digest InterfaceHeader.length parts)
    (behindHeader (payloads parts) (layout digest InterfaceHeader.length parts))
  have contentHash : done.contentHash = computeContentHash digest (writtenHeader languageRevision parts)
    (parts.map fun stored => (stored.tag, stored.decodedLength, stored.contentHash)) :=
    congrArg (computeContentHash digest (writtenHeader languageRevision parts)) contributions_layout
  let artifact : InterfaceArtifact Identity := {
    identity := identity
    bytes := writtenBytes digest languageRevision parts
    byteLen := UInt64.ofNat (InterfaceHeader.length +
      (behindHeader (payloads parts) (layout digest InterfaceHeader.length parts)).length)
    sectionCount := UInt64.ofNat (layout digest InterfaceHeader.length parts).length
    contentHash := done.contentHash
    artifactHash := done.artifactHash }
  refine ⟨artifact, ?_, rfl, contentHash⟩
  rw [assembleStoredSections]
  simp only [← length_payloads, checked, if_pos directory, if_neg small, if_pos front, except_ok_bind,
    if_pos (show InterfaceHeader.length + (payloads parts).length +
      parts.length * DirectoryEntry.length < wordLimit from fits), encodeHeader, usizeToU64,
    placeSections_eq_ok front, pure_bind]
  refine Eq.trans ?_ finished
  rfl

/-- A payload that is found is the part of the bytes in the range of its entry. -/
theorem slice_of_payload {entry : DirectoryEntry} {bytes payload : List UInt8}
    (found : entry.payload bytes = some payload) :
    entry.range.stop ≤ bytes.length ∧ Lib.slice bytes entry.range.start entry.range.stop = payload := by
  unfold DirectoryEntry.payload at found
  simp only at found
  split at found
  · split at found
    · rename_i inside
      exact ⟨inside, Option.some.inj found⟩
    · cases found
  · cases found

/-- **The entry of a stored section is well-formed** where its payload is found. -/
theorem wellFormed_entryAt {bytes : List UInt8} {place : Nat} {decoded : EncodedArtifactSection}
    {stored : StoredArtifactSection} (stores : Stores digest codec decoded stored)
    (found : (entryAt digest place stored).payload bytes = some stored.payload) :
    WellFormed codec bytes (entryAt digest place stored) := by
  have known : InterfaceSectionTag.fromWireValue (entryAt digest place stored).rawTag = some stored.tag :=
    InterfaceSectionTag.fromWireValue_wireValue stored.tag
  have compatibility : InterfaceSectionCompatibility.fromWireValue
    (entryAt digest place stored).rawCompatibility = some stored.tag.compatibility :=
    InterfaceSectionCompatibility.fromWireValue_wireValue _
  have encoding : InterfaceSectionEncoding.fromWireValue (entryAt digest place stored).rawEncoding =
    some stored.encoding := InterfaceSectionEncoding.fromWireValue_wireValue stored.encoding
  have revision : (entryAt digest place stored).sectionRevision = currentSectionRevision := rfl
  obtain ⟨inside, slice⟩ := slice_of_payload found
  constructor
  · intro context
    have lengths : stored.encoding = .raw →
      (entryAt digest place stored).encodedLength = (entryAt digest place stored).decodedLength := by
      intro raw
      obtain ⟨_, same⟩ | ⟨other, _⟩ := stores.payload
      · have fits : decoded.payload.length = stored.decodedLength.toNat := stores.decodedLength.symm
        change UInt64.ofNat stored.payload.length = stored.decodedLength
        rw [same, fits, UInt64.ofNat_toNat]
      · rw [raw] at other
        cases other
    have plain : (some stored.encoding == some InterfaceSectionEncoding.raw &&
      (entryAt digest place stored).encodedLength != (entryAt digest place stored).decodedLength) = false := by
      cases form : stored.encoding with
      | zstdFrame => rfl
      | raw => simp [lengths form]
    simp only [validateSectionContract, known, compatibility, encoding, revision, bne_self_eq_false,
      Bool.false_eq_true, if_false, Option.isNone_some, plain]
  · intro context
    simp only [checkFrame, known, Option.isSome_some, Bool.true_and, encoding_entryAt]
    obtain ⟨raw, _⟩ | ⟨framed, valid⟩ := stores.payload
    · rw [raw]
      rfl
    · rw [framed, if_pos (by rfl), if_neg (not_lt.mpr inside), slice]
      exact valid.valid context

/-- Lists that are related element by element map to one list where related elements do. -/
theorem map_of_forall₂ {α β γ : Type} {R : α → β → Prop} {f : β → γ} {g : α → γ} {xs : List α}
    {ys : List β} (same : ∀ a b, R a b → f b = g a) (all : List.Forall₂ R xs ys) : ys.map f = xs.map g := by
  induction all with
  | nil => rfl
  | cons first _ ih => rw [map_cons, map_cons, same _ _ first, ih]

/-- An element of a related list has a partner. -/
theorem mem_of_forall₂ {α β : Type} {R : α → β → Prop} {xs : List α} {ys : List β} {b : β}
    (all : List.Forall₂ R xs ys) (member : b ∈ ys) : ∃ a, a ∈ xs ∧ R a b := by
  induction all with
  | nil => cases member
  | @cons a b' _ _ first _ ih =>
    cases member with
    | head => exact ⟨a, (.head _), first⟩
    | tail _ member =>
      obtain ⟨partner, there, related⟩ := ih member
      exact ⟨partner, .tail _ there, related⟩

variable (languageRevision) in
theorem keeps_written (stores : List.Forall₂ (Stores digest codec) sections parts)
    (fits : fileLength parts < wordLimit) :
    List.Forall₂ (Keeps digest codec (writtenBytes digest languageRevision parts)) sections
      (layout digest InterfaceHeader.length parts) := by
  let done := (writtenHeader languageRevision parts).sealed digest (layout digest InterfaceHeader.length parts)
    (behindHeader (payloads parts) (layout digest InterfaceHeader.length parts))
  have split : writtenBytes digest languageRevision parts =
    (done.identityBytes ++ (done.contentHash.val ++ done.artifactHash.val)) ++ (payloads parts ++
      ((layout digest InterfaceHeader.length parts).map DirectoryEntry.encode).flatten) := by
    simp only [writtenBytes, sealedBytes, InterfaceHeader.fileBytes, behindHeader, append_assoc, done]
  rw [split]
  apply keeps_layout stores
  · simp [InterfaceHeader.length]
  · exact lt_of_le_of_lt (Nat.le_add_right _ _) fits

variable (languageRevision) in
/-- **The written container is sealed.** -/
theorem sealed_written {limits : InterfaceValidationLimits}
    (stores : List.Forall₂ (Stores digest codec) sections parts)
    (ascending : sections.Pairwise fun left right => left.tag.wireValue < right.tag.wireValue)
    (records : ∀ decoded ∈ sections, decoded.recordCount.toNat ≤ limits.recordsPerSection.toNat)
    (count : sections.length ≤ limits.sectionCount.toNat)
    (allocation : (sections.map fun decoded => decoded.payload.length).sum ≤ limits.decodedAllocation.toNat)
    (fileSize : fileLength parts ≤ limits.fileSize.toNat) :
    Sealed digest codec ⟨languageRevision, limits⟩ (writtenHeader languageRevision parts) (payloads parts)
      (layout digest InterfaceHeader.length parts) := by
  have fits : fileLength parts < wordLimit := lt_of_le_of_lt fileSize limits.fileSize.toNat_lt
  have directory : parts.length * DirectoryEntry.length < wordLimit :=
    lt_of_le_of_lt (Nat.le_add_left _ _) fits
  have front : InterfaceHeader.length + (payloads parts).length < wordLimit :=
    lt_of_le_of_lt (Nat.le_add_right _ _) fits
  have declared : (writtenHeader languageRevision parts).declaredFileLength.toNat = fileLength parts :=
    toNat_ofNat_word fits
  have offset : (writtenHeader languageRevision parts).directoryOffset.toNat =
    InterfaceHeader.length + (payloads parts).length := toNat_ofNat_word front
  have same := stores.length_eq
  have tags := map_of_forall₂ (fun _ _ stored => stored.tag) stores
  have counts := map_of_forall₂ (fun _ _ stored => stored.recordCount) stores
  have lengths := map_of_forall₂ (f := fun stored => stored.decodedLength.toNat)
    (fun _ _ stored => stored.decodedLength) stores
  have each := keeps_written languageRevision stores fits
  refine ⟨rfl, rfl, rfl, ?_, offset, ?_, ?_, ?_, ?_, ?_, ?_⟩
  · rw [declared, length_layout, fileLength]
  · rw [length_layout]
    exact toNat_ofNat_word directory
  · rw [declared]
    exact fileSize
  · rw [length_layout, ← same]
    exact count
  · intro entry member
    obtain ⟨decoded, _, stored, place, kept, rfl, found⟩ := mem_of_forall₂ each member
    exact wellFormed_entryAt kept found
  · intro entry member
    obtain ⟨decoded, _, stored, place, kept, rfl, found⟩ := mem_of_forall₂ each member
    exact ⟨stored.payload, found, rfl⟩
  · have bytes : (writtenBytes digest languageRevision parts).length = fileLength parts := by
      rw [writtenBytes, sealedBytes, InterfaceHeader.length_fileBytes, length_behindHeader, length_layout]
      exact (Nat.add_assoc _ _ _).symm
    apply follows_layout le_rfl
    · exact offset.ge
    · change (writtenHeader languageRevision parts).directoryOffset.toNat ≤
        (writtenBytes digest languageRevision parts).length
      rw [offset, bytes]
      exact Nat.le_add_right _ _
    · change (writtenBytes digest languageRevision parts).length < wordLimit
      rw [bytes]
      exact fits
    · intro previous known
      cases known
    · intro previous known
      cases known
    · have mapped : (parts.map (·.tag)).Pairwise fun left right => left.wireValue < right.wireValue := by
        rw [tags]
        exact (pairwise_map (f := fun decoded : EncodedArtifactSection => decoded.tag)).mpr ascending
      exact (pairwise_map (f := fun stored : StoredArtifactSection => stored.tag)).mp mapped
    · intro stored member
      have known : stored.recordCount ∈ sections.map (·.recordCount) := by
        rw [← counts]
        exact mem_map_of_mem member
      obtain ⟨decoded, there, equal⟩ := mem_map.mp known
      rw [← equal]
      exact records decoded there
    · rw [lengths]
      exact (Nat.zero_add _).trans_le allocation

end Written

/-! ## 4. Finding the sections again -/

section Lookup

variable {digest : Digest} {codec : FrameCodec} {sections : List EncodedArtifactSection}
  {interface : ValidatedPackageInterface}

variable {decoded : EncodedArtifactSection} {entry : DirectoryEntry}

theorem rawTag_of_keeps {bytes : List UInt8}
    (keeps : Keeps digest codec bytes decoded entry) : entry.rawTag = decoded.tag.wireValue := by
  obtain ⟨stored, place, stores, rfl, _⟩ := keeps
  change stored.tag.wireValue = decoded.tag.wireValue
  rw [stores.tag]

theorem decodeAndVerifySection_eq_ok {bytes : List UInt8}
    (index : Nat) (keeps : Keeps digest codec bytes decoded entry) :
    ∃ stored payload, entry.payload bytes = some stored ∧
      decodeAndVerifySection digest codec index entry stored = .ok payload ∧
      payload.getD stored = decoded.payload := by
  obtain ⟨stored, place, stores, rfl, found⟩ := keeps
  have verified : computeSectionContentHash digest stored.tag decoded.payload =
    (entryAt digest place stored).contentHash := by
    rw [stores.tag, ← stores.contentHash]
    rfl
  obtain ⟨raw, same⟩ | ⟨framed, valid⟩ := stores.payload
  · refine ⟨stored.payload, none, found, ?_, same⟩
    simp only [decodeAndVerifySection, encoding_entryAt, raw, decodePayload, except_ok_bind, tag_entryAt,
      Option.getD_none, same, verified, bne_self_eq_false, Bool.false_eq_true, if_false]
    rfl
  · refine ⟨stored.payload, some decoded.payload, found, ?_, rfl⟩
    have decodes := valid.decodes (.directoryEntry index (entryAt digest place stored).rawTag)
    change decodeZstdFrame codec _ stored.payload (entryAt digest place stored).decodedLength = _ at decodes
    simp only [decodeAndVerifySection, encoding_entryAt, framed, decodePayload, decodes, except_ok_bind,
      pure_bind, tag_entryAt, Option.getD_some, verified, bne_self_eq_false, Bool.false_eq_true, if_false]
    rfl

theorem sectionByIndex_eq_ok {index : Nat} (there : interface.directory[index]? = some entry)
    (keeps : Keeps digest codec interface.bytes decoded entry) :
    ∃ found, interface.sectionByIndex digest codec index = .ok found ∧ found.tag = decoded.tag ∧
      found.recordCount = decoded.recordCount ∧ found.bytes = decoded.payload := by
  obtain ⟨payload, result, stored, verified, same⟩ := decodeAndVerifySection_eq_ok index keeps
  obtain ⟨part, place, stores, rfl, _⟩ := keeps
  refine ⟨⟨part.tag, (entryAt digest place part).sectionRevision, part.encoding,
    (entryAt digest place part).recordCount, (entryAt digest place part).checksum, decoded.payload⟩, ?_,
    stores.tag, stores.recordCount, rfl⟩
  simp only [ValidatedPackageInterface.sectionByIndex, there, stored, verified, except_ok_bind, same,
    ValidatedInterfaceSection.new, tag_entryAt, encoding_entryAt]
  rfl

section

variable (all : List.Forall₂ (Keeps digest codec interface.bytes) sections interface.directory)
include all

/-- **A section that is kept is found under its tag.** -/
theorem section_eq_ok (ascending : sections.Pairwise fun left right => left.tag.wireValue < right.tag.wireValue)
    (member : decoded ∈ sections) :
    ∃ found, interface.section digest codec decoded.tag = .ok (some found) ∧ found.tag = decoded.tag ∧
      found.recordCount = decoded.recordCount ∧ found.bytes = decoded.payload := by
  obtain ⟨index, inside, rfl⟩ := getElem_of_mem member
  have within : index < interface.directory.length := by
    rw [← all.length_eq]
    exact inside
  have keeps := all.get inside within
  simp only [get_eq_getElem] at keeps
  have first : interface.directory.findIdx? (·.rawTag == sections[index].tag.wireValue) = some index := by
    refine findIdx?_eq_some_iff_getElem.mpr ⟨within, beq_iff_eq.mpr (rawTag_of_keeps keeps), ?_⟩
    intro earlier before same
    have there : earlier < sections.length := lt_trans before inside
    have other := all.get there (lt_trans before within)
    simp only [get_eq_getElem] at other
    have order := pairwise_iff_getElem.mp ascending earlier index there inside before
    rw [← rawTag_of_keeps other, beq_iff_eq.mp same] at order
    exact UInt32.lt_irrefl _ order
  have there : interface.directory[index]? = some interface.directory[index] :=
    getElem?_eq_getElem within
  have known : interface.directory[index].tag = some sections[index].tag := by
    obtain ⟨stored, place, stores, equal, _⟩ := keeps
    rw [equal, tag_entryAt, stores.tag]
  obtain ⟨found, done, facts⟩ := sectionByIndex_eq_ok there keeps
  refine ⟨found, ?_, facts⟩
  simp only [ValidatedPackageInterface.section, first, there, known, bne_self_eq_false, Bool.false_eq_true,
    if_false, done, except_ok_bind]
  rfl

/-- **Another tag is not found.** -/
theorem section_eq_none {tag : InterfaceSectionTag}
    (absent : ∀ decoded ∈ sections, decoded.tag ≠ tag) : interface.section digest codec tag = .ok none := by
  have missing : interface.directory.findIdx? (·.rawTag == tag.wireValue) = none := by
    refine findIdx?_eq_none_iff.mpr ?_
    intro entry member
    obtain ⟨decoded, there, keeps⟩ := mem_of_forall₂ all member
    rw [beq_eq_false_iff_ne, rawTag_of_keeps keeps]
    intro same
    have known := InterfaceSectionTag.fromWireValue_wireValue decoded.tag
    rw [same, InterfaceSectionTag.fromWireValue_wireValue] at known
    exact absent decoded there (Option.some.inj known).symm
  simp only [ValidatedPackageInterface.section, missing]

end

end Lookup

/-! ## 5. The round trip -/

def contentHashOf (digest : Digest) (languageRevision : UInt16) (sections : List EncodedArtifactSection) : Hash :=
  let fields := leBytes 2 currentFormatRevision.toNat ++ leBytes 2 languageRevision.toNat ++
    leBytes 8 noRequiredFlags.toNat
  digest (contentHashDomain ++ fields ++ (sections.map fun decoded => sectionContribution
    (decoded.tag, UInt64.ofNat decoded.payload.length,
      computeSectionContentHash digest decoded.tag decoded.payload)).flatten)

section RoundTrip

variable {digest : Digest} {codec : FrameCodec} {languageRevision : UInt16}
  {sections : List EncodedArtifactSection} {parts : List StoredArtifactSection}

variable (languageRevision) in
/-- The content hash of a written container does not see how its sections are stored. -/
theorem contentHash_written (stores : List.Forall₂ (Stores digest codec) sections parts) :
    computeContentHash digest (writtenHeader languageRevision parts)
      (parts.map fun stored => (stored.tag, stored.decodedLength, stored.contentHash)) =
      contentHashOf digest languageRevision sections := by
  have same := map_of_forall₂ (f := fun stored => (stored.tag, stored.decodedLength, stored.contentHash))
    (g := fun decoded => (decoded.tag, UInt64.ofNat decoded.payload.length,
      computeSectionContentHash digest decoded.tag decoded.payload)) (fun decoded stored kept => by
        rw [kept.tag, kept.contentHash, ← kept.decodedLength, UInt64.ofNat_toNat]) stores
  rw [same, computeContentHash, map_map]
  rfl

theorem fits_of_assembleStoredSections {Identity : Type} {identity : Identity}
    {artifact : InterfaceArtifact Identity}
    (ok : assembleStoredSections digest parts identity languageRevision = .ok artifact) :
    fileLength parts < wordLimit := by
  obtain ⟨directoryLength, first, ok⟩ := except_bind_eq_ok.mp ok
  split at ok
  · cases ok
  obtain ⟨directoryOffset, second, ok⟩ := except_bind_eq_ok.mp ok
  obtain ⟨length, third, _⟩ := except_bind_eq_ok.mp ok
  unfold checked at first second third
  split at first
  · split at second
    · split at third
      · rename_i fits
        cases first
        cases second
        rw [← length_payloads] at fits
        exact fits
      · cases third
    · cases second
  · cases first

/-- The length of the container of decoded sections. -/
def assembledLength (codec : FrameCodec) (sections : List EncodedArtifactSection) : Nat :=
  InterfaceHeader.length + (sections.map (storedLength codec)).sum + sections.length * DirectoryEntry.length

variable (digest codec languageRevision sections) in
/-- **The round trip.** Sections in the order of their tags that keep the limits are assembled, the
container is accepted, every section is found with its payload, and no other tag is. The content hash is
one of the decoded sections, and any other way to store the same sections gives the same. -/
theorem assembled_sections_are_found {Identity : Type} (identity : Identity)
    (limits : InterfaceValidationLimits) (faithful : codec.Faithful)
    (ascending : sections.Pairwise fun left right => left.tag.wireValue < right.tag.wireValue)
    (records : ∀ decoded ∈ sections, decoded.recordCount.toNat ≤ limits.recordsPerSection.toNat)
    (count : sections.length ≤ limits.sectionCount.toNat)
    (allocation : (sections.map fun decoded => decoded.payload.length).sum ≤ limits.decodedAllocation.toNat)
    (fileSize : assembledLength codec sections ≤ limits.fileSize.toNat) :
    ∃ artifact interface, assembleSections digest codec sections identity languageRevision = .ok artifact ∧
      ValidatedPackageInterface.tryNew digest codec artifact.bytes ⟨languageRevision, limits⟩ = .ok interface ∧
      (∀ decoded ∈ sections, ∃ found, interface.section digest codec decoded.tag = .ok (some found) ∧
        found.tag = decoded.tag ∧ found.recordCount = decoded.recordCount ∧ found.bytes = decoded.payload) ∧
      (∀ tag, (∀ decoded ∈ sections, decoded.tag ≠ tag) → interface.section digest codec tag = .ok none) ∧
      interface.header.contentHash = contentHashOf digest languageRevision sections ∧
      ∀ parts (other : InterfaceArtifact Identity), List.Forall₂ (Stores digest codec) sections parts →
        assembleStoredSections digest parts identity languageRevision = .ok other →
        other.contentHash = contentHashOf digest languageRevision sections := by
  have short : ∀ decoded ∈ sections, decoded.payload.length < wordLimit := by
    intro decoded member
    have part : decoded.payload.length ≤ (sections.map fun decoded => decoded.payload.length).sum :=
      single_le_sum (fun _ _ => Nat.zero_le _) _ (mem_map_of_mem member)
    exact lt_of_le_of_lt (le_trans part allocation) limits.decodedAllocation.toNat_lt
  obtain ⟨parts, stored, stores, lengths⟩ := storeSections_eq_ok digest faithful short
  have size : fileLength parts = assembledLength codec sections := by
    rw [fileLength, assembledLength, length_payloads, lengths, stores.length_eq]
  have fits : fileLength parts < wordLimit := by
    rw [size]
    exact lt_of_le_of_lt fileSize limits.fileSize.toNat_lt
  obtain ⟨artifact, assembled, bytes, contentHash⟩ := assembleStoredSections_eq_ok digest languageRevision
    identity fits
  have container := sealed_written languageRevision stores ascending
    records count allocation (size.trans_le fileSize)
  have kept := keeps_written languageRevision stores fits
  have accepted := container.tryNew_eq_ok
  let interface : ValidatedPackageInterface := {
    bytes := writtenBytes digest languageRevision parts
    header := (writtenHeader languageRevision parts).sealed digest (layout digest InterfaceHeader.length parts)
      (behindHeader (payloads parts) (layout digest InterfaceHeader.length parts))
    directory := layout digest InterfaceHeader.length parts }
  refine ⟨artifact, interface, ?_, ?_, ?_, ?_, ?_, ?_⟩
  · rw [assembleSections, stored]
    exact assembled
  · rw [bytes]
    exact accepted
  · intro decoded member
    exact section_eq_ok kept ascending member
  · intro tag absent
    exact section_eq_none kept absent
  · rw [← contentHash_written languageRevision stores, ← contributions_layout]
    rfl
  · intro others other same ok
    obtain ⟨again, done, _, hash⟩ := assembleStoredSections_eq_ok digest languageRevision
      identity (fits_of_assembleStoredSections ok)
    rw [ok] at done
    cases done
    rw [hash, contentHash_written languageRevision same]

end RoundTrip

/-! A codec that stores runs of zeros by their length, and a digest by length. -/

/-- A frame with a checksum flag, the least window, the content size, and a run of zeros or the content. -/
def runCodec : FrameCodec where
  compress decoded := .ok ([0x28, 0xB5, 0x2F, 0xFD, 0b0000_0100, 0] ++ (leBytes 8 decoded.length ++
    if decoded = List.replicate decoded.length 0 then [0] else 1 :: decoded))
  frameSize frame := some frame.length
  contentSize frame := some (some (UInt64.ofNat (Lib.leValue ((frame.drop 6).take 8))))
  decompress frame capacity :=
    match frame.drop 14 with
    | [] => .error .decoding
    | run :: content => .ok (if run = 0 then List.replicate capacity 0 else content)

theorem runCodec_faithful : runCodec.Faithful where
  compresses decoded := ⟨_, rfl⟩
  frameSize decoded frame compressed := by cases compressed; rfl
  descriptor decoded frame compressed := by
    cases compressed
    refine ⟨0b0000_0100, rfl, by decide, by decide, by decide, ?_⟩
    exact ⟨0, rfl, by decide⟩
  contentSize decoded frame fits compressed := by
    cases compressed
    change some (some (UInt64.ofNat (Lib.leValue (List.take 8 (leBytes 8 decoded.length ++ _))))) = _
    rw [take_left' (Lib.length_leBytes 8 _), Lib.leValue_leBytes (by exact fits)]
  decompress decoded frame compressed := by
    cases compressed
    have content : ∀ rest : List UInt8, ([0x28, 0xB5, 0x2F, 0xFD, 0b0000_0100, 0] ++
      (leBytes 8 decoded.length ++ rest)).drop 14 = rest := by
      intro rest
      rw [← append_assoc]
      exact drop_left' (by simp)
    simp only [runCodec, content]
    split
    · rename_i missing
      split at missing <;> cases missing
    · rename_i run rest found
      split at found
      · rename_i zeros
        cases found
        rw [if_pos rfl, ← zeros]
      · cases found
        rfl

def lengthDigest : Digest := fun bytes => ⟨List.replicate 32 (UInt8.ofNat bytes.length), length_replicate⟩

/-- A short, an empty and a compressible section are found in their container. -/
theorem three_sections_are_found : ∃ artifact interface,
    assembleSections lengthDigest runCodec [⟨.strings, 1, [1, 2, 3]⟩, ⟨.sourceProvenance, 0, []⟩,
      ⟨.supportGraph, 7, List.replicate 2048 0⟩] () 5 = .ok artifact ∧
    ValidatedPackageInterface.tryNew lengthDigest runCodec artifact.bytes
      ⟨5, InterfaceValidationLimits.default⟩ = .ok interface ∧
    ∃ found, interface.section lengthDigest runCodec .supportGraph = .ok (some found) ∧
      found.bytes = List.replicate 2048 0 := by
  obtain ⟨artifact, interface, assembled, accepted, sections, _⟩ :=
    assembled_sections_are_found lengthDigest runCodec 5 [⟨.strings, 1, [1, 2, 3]⟩,
      ⟨.sourceProvenance, 0, []⟩, ⟨.supportGraph, 7, List.replicate 2048 0⟩] ()
      InterfaceValidationLimits.default
      runCodec_faithful (by decide) (by decide) (by decide) (by decide +kernel) (by decide +kernel)
  obtain ⟨found, ok, _, _, bytes⟩ := sections ⟨.supportGraph, 7, List.replicate 2048 0⟩
    (.tail _ (.tail _ (.head _)))
  exact ⟨artifact, interface, assembled, accepted, found, ok, bytes⟩

end Bray.Container
