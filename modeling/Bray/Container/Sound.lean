/-
  File:      Bray/Container/Sound.lean
  Subject:   STRUCTURAL SOUNDNESS: what acceptance says about where the parts of a container lie.

  Every part of an accepted container lies inside the file, its tags ascend, its decoded lengths keep the
  limit, and no lookup leaves the bytes. A payload is compared with the header, the directory and the
  payload before it only, and the directory is compared with nothing. So the parts are pairwise disjoint
  exactly when the two comparisons that are not made would have passed.
-/
import Bray.Container.RoundTrip

namespace Bray.Container

open InterfaceHeader

open Lib (except_bind_eq_ok except_ok_bind)

/-! ## 1. Soundness -/

def InterfaceHeader.directoryRange (header : InterfaceHeader) : Range :=
  ⟨header.directoryOffset.toNat, header.directoryOffset.toNat + header.directoryLength.toNat⟩

def Range.Inside (range : Range) (bytes : List UInt8) : Prop := range.stop ≤ bytes.length

/-- The parts of an interface lie inside its bytes and share none of them, the tags ascend, the decoded
lengths keep the limit, and every payload is read inside the bytes. -/
structure Sound (limits : InterfaceValidationLimits) (interface : ValidatedPackageInterface) : Prop where
  header_inside : headerRange.Inside interface.bytes
  directory_inside : interface.header.directoryRange.Inside interface.bytes
  payload_inside : ∀ entry ∈ interface.directory, entry.range.Inside interface.bytes
  directory_header : interface.header.directoryRange.Apart headerRange
  payload_header : ∀ entry ∈ interface.directory, entry.range.Apart headerRange
  payload_directory : ∀ entry ∈ interface.directory, entry.range.Apart interface.header.directoryRange
  payloads : ∀ (i j : Nat) (left right : DirectoryEntry), i < j → interface.directory[i]? = some left →
    interface.directory[j]? = some right → right.range.Apart left.range
  ascending : interface.directory.Pairwise fun left right => left.rawTag < right.rawTag
  allocation : (interface.directory.map fun entry => entry.decodedLength.toNat).sum ≤ limits.decodedAllocation.toNat
  lookups : ∀ entry ∈ interface.directory, entry.payload interface.bytes =
    some (Lib.slice interface.bytes entry.range.start entry.range.stop)

/-- What is asked of the validation of bytes: it does not panic, and what it accepts is sound and can be
looked up without a panic. -/
def ValidatesSoundly (digest : Digest) (codec : FrameCodec) (bytes : List UInt8)
  (policy : InterfaceValidationPolicy) : Prop :=
  ValidatedPackageInterface.tryNew digest codec bytes policy ≠ .error .panicked ∧
    ∀ interface, ValidatedPackageInterface.tryNew digest codec bytes policy = .ok interface →
      Sound policy.limits interface ∧ ∀ tag, interface.section digest codec tag ≠ .error .panicked

def declaredEntries (bytes : List UInt8) (header : InterfaceHeader) : List DirectoryEntry :=
  (Lib.chunksExact DirectoryEntry.length
    (Lib.slice bytes header.directoryRange.start header.directoryRange.stop)).filterMap
      fun chunk => (DirectoryEntry.decode chunk).toOption

/-- The bytes pass the comparisons that the validation does not make: their directory, where it is not
empty, starts behind the header, and no two payloads that are not neighbours in the directory share a
byte. -/
def Separated (bytes : List UInt8) : Prop :=
  ∀ decoded, decode bytes = .ok decoded →
    (decoded.header.directoryLength = 0 ∨ length ≤ decoded.header.directoryOffset.toNat) ∧
    ∀ (i j : Nat) (left right : DirectoryEntry), i + 1 < j → (declaredEntries bytes decoded.header)[i]? = some left →
      (declaredEntries bytes decoded.header)[j]? = some right → right.range.Apart left.range

/-! ## 2. What acceptance establishes -/

section Accepted

variable {digest : Digest} {codec : FrameCodec} {bytes : List UInt8} {policy : InterfaceValidationPolicy}
  {interface : ValidatedPackageInterface}

theorem filterMap_of_forall₂ {chunks : List (List UInt8)} {entries : List DirectoryEntry}
    (all : List.Forall₂ (fun chunk entry => DirectoryEntry.decode chunk = .ok entry) chunks entries) :
    (chunks.filterMap fun chunk => (DirectoryEntry.decode chunk).toOption) = entries := by
  induction all with
  | nil => rfl
  | cons first _ ih =>
    rw [List.filterMap_cons, first, ← ih]
    rfl

/-- **What acceptance establishes**: the header and the entries are those that the bytes declare, the
directory is inside the bytes, and the entries fit one after another. -/
theorem tryNew_facts (ok : ValidatedPackageInterface.tryNew digest codec bytes policy = .ok interface) :
    interface.bytes = bytes ∧
    (∃ decoded, decode bytes = .ok decoded ∧ decoded.header = interface.header) ∧
    interface.header.directoryRange.stop ≤ bytes.length ∧
    interface.directory = declaredEntries bytes interface.header ∧
    Follows bytes interface.header.directoryRange policy.limits .start interface.directory := by
  obtain ⟨_, _, ok⟩ := except_bind_eq_ok.mp ok
  obtain ⟨decoded, header, ok⟩ := except_bind_eq_ok.mp ok
  obtain ⟨_, _, ok⟩ := except_bind_eq_ok.mp ok
  obtain ⟨range, checked, ok⟩ := except_bind_eq_ok.mp ok
  obtain ⟨directory, entries, ok⟩ := except_bind_eq_ok.mp ok
  obtain ⟨_, _, ok⟩ := except_bind_eq_ok.mp ok
  cases ok
  obtain ⟨same, _, inside⟩ := checkedRange_eq_ok.mp (mapErr_eq_ok.mp checked)
  subst same
  obtain ⟨_, _, entries⟩ := except_bind_eq_ok.mp entries
  obtain ⟨part, sliced, entries⟩ := except_bind_eq_ok.mp entries
  unfold index at sliced
  split at sliced
  · cases sliced
    obtain ⟨all, follows⟩ := follows_of_decodeEntries entries
    exact ⟨rfl, ⟨decoded, mapErr_eq_ok.mp header, rfl⟩, inside, (filterMap_of_forall₂ all).symm, follows⟩
  · cases sliced

/-- A range in which positions come before or behind a bound is apart from what ends there. -/
theorem apart_headerRange {range : Range} :
    range.Apart headerRange ↔ range.stop ≤ range.start ∨ length ≤ range.start := by
  constructor
  · intro apart
    by_contra overlap
    rw [not_or, not_le, not_le] at overlap
    exact apart range.start ⟨⟨le_rfl, overlap.1⟩, Nat.zero_le _, overlap.2⟩
  · intro order position both
    obtain ⟨⟨_, _⟩, _, last⟩ := both
    change position < length at last
    omega

theorem apart_directoryRange {header : InterfaceHeader} : header.directoryRange.Apart headerRange ↔
    header.directoryLength = 0 ∨ length ≤ header.directoryOffset.toNat := by
  have empty : header.directoryLength = 0 ↔ header.directoryLength.toNat = 0 := by
    rw [← UInt64.toNat_inj]
    rfl
  rw [apart_headerRange, empty]
  simp only [InterfaceHeader.directoryRange]
  omega

/-- **An accepted interface is sound exactly when its bytes are separated.** -/
theorem sound_iff_separated (ok : ValidatedPackageInterface.tryNew digest codec bytes policy = .ok interface) :
    Sound policy.limits interface ↔ Separated bytes := by
  obtain ⟨same, ⟨decoded, header, equal⟩, inside, entries, follows⟩ := tryNew_facts ok
  have each := follows.each
  constructor
  · intro sound other again
    rw [header] at again
    cases again
    rw [equal, ← entries]
    refine ⟨apart_directoryRange.mp sound.directory_header, ?_⟩
    intro i j left right order first second
    exact sound.payloads i j left right (Nat.lt_of_succ_lt order) first second
  · intro separated
    obtain ⟨front, apart⟩ := separated decoded header
    rw [equal] at front apart
    rw [← entries] at apart
    constructor
    · rw [Range.Inside, same]
      exact length_of_decode header
    · rw [Range.Inside, same]
      exact inside
    · intro entry member
      rw [Range.Inside, same]
      exact (each entry member).2.1
    · exact apart_directoryRange.mpr front
    · intro entry member
      exact apart_of_not_rangesOverlap (each entry member).2.2.1
    · intro entry member
      exact apart_of_not_rangesOverlap (each entry member).2.2.2
    · intro i j left right order first second
      obtain later | next := Nat.lt_or_eq_of_le (Nat.succ_le_of_lt order)
      · exact apart i j left right later first second
      · -- neighbours are compared by the validation itself
        subst next
        exact apart_of_not_rangesOverlap (follows.neighbours first second)
    · exact follows.ascending.2
    · have sum := follows.allocation (Nat.zero_le _)
      exact (Nat.zero_add _).symm.trans_le sum
    · intro entry member
      rw [same]
      exact payload_eq_some (each entry member).1 (each entry member).2.1

/-- **The validation never panics, and it is sound for exactly the bytes that are separated.** -/
theorem validates_soundly_iff (digest : Digest) (codec : FrameCodec) (bytes : List UInt8)
    (policy : InterfaceValidationPolicy) :
    ValidatedPackageInterface.tryNew digest codec bytes policy ≠ .error .panicked ∧
      ((∃ interface, ValidatedPackageInterface.tryNew digest codec bytes policy = .ok interface) →
        (ValidatesSoundly digest codec bytes policy ↔ Separated bytes)) := by
  refine ⟨tryNew_ne_panicked, fun accepted => ?_⟩
  obtain ⟨interface, ok⟩ := accepted
  constructor
  · intro sound
    exact (sound_iff_separated ok).mp (sound.2 interface ok).1
  · intro separated
    refine ⟨tryNew_ne_panicked, fun other again => ⟨?_, fun tag => section_ne_panicked⟩⟩
    exact (sound_iff_separated again).mpr separated

end Accepted

/-! ## 3. Payloads that share a byte -/

def byteSection (digest : Digest) (tag : InterfaceSectionTag) (byte : UInt8) : StoredArtifactSection where
  tag := tag
  encoding := .raw
  decodedLength := 1
  recordCount := 0
  contentHash := computeSectionContentHash digest tag [byte]
  payload := [byte]

/-- Three sections of one byte, of which the first and the third have the same payload. -/
def overlappingEntries (digest : Digest) : List DirectoryEntry :=
  [entryAt digest 112 (byteSection digest .strings 1), entryAt digest 113 (byteSection digest .packageMetadata 2),
    entryAt digest 112 (byteSection digest .dependencies 1)]

/-- The header of a container of two payload bytes and three entries. -/
def overlappingHeader : InterfaceHeader where
  formatRevision := currentFormatRevision
  languageRevision := 0
  requiredFlags := noRequiredFlags
  declaredFileLength := 426
  directoryOffset := 114
  directoryLength := 312
  contentHash := .zero
  artifactHash := .zero

def overlappingBytes (digest : Digest) : List UInt8 :=
  sealedBytes digest overlappingHeader [1, 2] (overlappingEntries digest)

section Overlapping

variable (digest : Digest) (codec : FrameCodec)

theorem stores_byteSection (tag : InterfaceSectionTag) (byte : UInt8) :
  Stores digest codec ⟨tag, 0, [byte]⟩ (byteSection digest tag byte) where
  tag := rfl
  recordCount := rfl
  decodedLength := rfl
  contentHash := rfl
  payload := .inl ⟨rfl, rfl⟩

theorem range_byteSection (place : Nat) (tag : InterfaceSectionTag) (byte : UInt8)
    (fits : place + 1 < wordLimit) : (entryAt digest place (byteSection digest tag byte)).range = ⟨place, place + 1⟩ :=
  range_entryAt digest fits

/-- The two payload bytes stand behind the header. -/
theorem overlappingBytes_split : ∃ front directory : List UInt8, front.length = 112 ∧
    directory.length = 312 ∧ overlappingBytes digest = front ++ ([1, 2] ++ directory) := by
  let done := overlappingHeader.sealed digest (overlappingEntries digest)
    (behindHeader [1, 2] (overlappingEntries digest))
  refine ⟨done.identityBytes ++ (done.contentHash.val ++ done.artifactHash.val),
    ((overlappingEntries digest).map DirectoryEntry.encode).flatten, ?_, ?_, ?_⟩
  · simp
  · simp [overlappingEntries, DirectoryEntry.length]
  · simp [overlappingBytes, sealedBytes, fileBytes, behindHeader, List.append_assoc, done]

theorem length_overlappingBytes : (overlappingBytes digest).length = 426 := by
  obtain ⟨front, directory, first, last, split⟩ := overlappingBytes_split digest
  rw [split]
  simp [first, last]

/-- A payload of one byte is found where it stands. -/
theorem payload_byteSection {place : Nat} {tag : InterfaceSectionTag} {byte : UInt8} {front back : List UInt8}
    (split : overlappingBytes digest = front ++ ([byte] ++ back)) (position : front.length = place) :
    (entryAt digest place (byteSection digest tag byte)).payload (overlappingBytes digest) = some [byte] := by
  have inside : place + 1 ≤ 426 := by
    rw [← length_overlappingBytes digest, split, ← position]
    simp only [List.length_append, List.length_cons, List.length_nil]
    omega
  have word : place + 1 < wordLimit := lt_of_le_of_lt inside (by decide)
  have range := range_byteSection digest place tag byte word
  have there : (entryAt digest place (byteSection digest tag byte)).range.stop ≤
    (overlappingBytes digest).length := by
    rw [range, length_overlappingBytes]
    exact inside
  rw [payload_eq_some (by rw [range]; exact word) there, range, split]
  exact congrArg some (Lib.slice_between front [byte] back position (by rw [position]; rfl))

theorem payload_overlappingEntries : ∀ entry ∈ overlappingEntries digest, ∃ decoded stored place,
    Stores digest codec decoded stored ∧ entry = entryAt digest place stored ∧
      entry.payload (overlappingBytes digest) = some stored.payload := by
  obtain ⟨front, directory, position, _, split⟩ := overlappingBytes_split digest
  have first : overlappingBytes digest = front ++ ([1] ++ ([2] ++ directory)) := split
  have second : overlappingBytes digest = (front ++ [1]) ++ ([2] ++ directory) := by
    rw [split, List.append_assoc]
    rfl
  have behind : (front ++ [1]).length = 113 := by rw [List.length_append, position]; rfl
  intro entry member
  simp only [overlappingEntries, List.mem_cons, List.not_mem_nil, or_false] at member
  obtain rfl | rfl | rfl := member
  · exact ⟨_, _, 112, stores_byteSection digest codec .strings 1, rfl, payload_byteSection digest first position⟩
  · exact ⟨_, _, 113, stores_byteSection digest codec .packageMetadata 2, rfl,
    payload_byteSection digest second behind⟩
  · exact ⟨_, _, 112, stores_byteSection digest codec .dependencies 1, rfl,
    payload_byteSection digest first position⟩

/-- **The overlapping container is sealed**, whatever the digest function. -/
theorem sealed_overlapping : Sealed digest codec ⟨0, InterfaceValidationLimits.default⟩ overlappingHeader
  [1, 2] (overlappingEntries digest) where
  format := rfl
  language := rfl
  flags := rfl
  declared := by
    change 426 = length + 2 + 3 * DirectoryEntry.length
    decide
  offset := by
    decide
  directory := by
    change 312 = 3 * DirectoryEntry.length
    decide
  fileSize := by decide
  count := by
    change 3 ≤ InterfaceValidationLimits.default.sectionCount.toNat
    decide
  wellFormed := by
    intro entry member
    obtain ⟨decoded, stored, place, stores, rfl, found⟩ := payload_overlappingEntries digest codec entry member
    exact wellFormed_entryAt stores found
  checksums := by
    intro entry member
    obtain ⟨decoded, stored, place, stores, rfl, found⟩ := payload_overlappingEntries digest codec entry member
    exact ⟨stored.payload, found, rfl⟩
  follows := by
    have length := length_overlappingBytes digest
    have word : (overlappingBytes digest).length < wordLimit := by
      rw [length]
      decide
    have before : ∀ {place : Nat}, place + 1 ≤ 114 → place + 1 ≤ (overlappingBytes digest).length := by
      intro place inside
      rw [length]
      exact le_trans inside (by decide)
    refine ⟨fits_entryAt (before (by decide)) word ?_ ?_ ?_ ?_ ?_ ?_,
      fits_entryAt (before (by decide)) word ?_ ?_ ?_ ?_ ?_ ?_,
      fits_entryAt (before (by decide)) word ?_ ?_ ?_ ?_ ?_ ?_, trivial⟩
    · intro previous known
      cases known
    · exact Nat.zero_le _
    · change 0 + 1 ≤ InterfaceValidationLimits.default.decodedAllocation.toNat
      decide
    · decide
    · change 113 ≤ 114
      decide
    · intro previous known
      cases known
    · intro previous known
      cases known
      change (1 : UInt32) < 2
      decide
    · exact Nat.zero_le _
    · change 0 + 1 + 1 ≤ InterfaceValidationLimits.default.decodedAllocation.toNat
      decide
    · decide
    · change 114 ≤ 114
      decide
    · intro previous known
      cases known
      exact .inr le_rfl
    · intro previous known
      cases known
      change (2 : UInt32) < 3
      decide
    · exact Nat.zero_le _
    · change 0 + 1 + 1 + 1 ≤ InterfaceValidationLimits.default.decodedAllocation.toNat
      decide
    · decide
    · change 113 ≤ 114
      decide
    · intro previous known
      cases known
      exact .inl le_rfl

/-- **The overlapping container is accepted**, whatever the digest function and the compressor, though its
first and its third payload are the same byte. -/
theorem overlapping_accepted : ∃ interface, ValidatedPackageInterface.tryNew digest codec (overlappingBytes digest)
      ⟨0, InterfaceValidationLimits.default⟩ = .ok interface ∧
    ¬ Sound InterfaceValidationLimits.default interface := by
  refine ⟨_, (sealed_overlapping digest codec).tryNew_eq_ok, ?_⟩
  intro sound
  have apart := sound.payloads 0 2 _ _ (by decide) rfl rfl
  rw [range_byteSection digest 112 .dependencies 1 (by decide),
    range_byteSection digest 112 .strings 1 (by decide)] at apart
  exact apart 112 ⟨⟨le_rfl, by decide⟩, le_rfl, by decide⟩

end Overlapping

/-- Payloads that share a byte pass the validation. -/
theorem overlapping_payloads_pass : ¬ ValidatesSoundly lengthDigest runCodec (overlappingBytes lengthDigest)
    ⟨0, InterfaceValidationLimits.default⟩ := by
  intro sound
  obtain ⟨interface, accepted, unsound⟩ := overlapping_accepted lengthDigest runCodec
  exact unsound (sound.2 interface accepted).1

end Bray.Container
