/-
  File:      Bray/Container/Accept.lean
  Subject:   WHAT IS ACCEPTED: the checks of the directory as facts about its entries.

  An entry fits after the entries before it when its tag comes later, its payload stays clear of the header,
  the directory and the payload before it, and the limits hold. The entries of an accepted directory fit one
  after another, and entries that fit so and keep their contract are accepted.
-/
import Bray.Container.Validate
import Mathlib.Data.List.Chain

namespace Bray.Container

open DirectoryEntry

open Lib (except_bind_eq_ok except_bind_eq_error except_ok_bind)

/-! ## 1. Small checks -/

theorem usizeToU64Saturating_toNat {value : Nat} (fits : value < wordLimit) :
    (usizeToU64Saturating value).toNat = value := by
  rw [usizeToU64Saturating, if_pos fits]
  exact Nat.mod_eq_of_lt fits

theorem check_eq_ok {limits : InterfaceValidationLimits} {limit : InterfaceLimit} {actual : Nat}
    {done : Unit} : limits.check limit actual = .ok done ↔ actual ≤ (limits.maximum limit).toNat := by
  unfold InterfaceValidationLimits.check
  split
  · simp only [reject, reduceCtorEq, false_iff]
    omega
  · simp only [true_iff]
    omega

theorem rejectIf_eq_ok {condition : Bool} {error : InterfaceValidationError} {done : Unit} :
    rejectIf condition error = .ok done ↔ condition = false := by
  cases condition <;> simp [rejectIf, reject]

theorem rejectIf_ne_panicked {condition : Bool} {error : InterfaceValidationError} :
    rejectIf condition error ≠ .error .panicked := by
  cases condition <;> simp [rejectIf, reject]

theorem check_ne_panicked {limits : InterfaceValidationLimits} {limit : InterfaceLimit} {actual : Nat} :
    limits.check limit actual ≠ .error .panicked := by
  unfold InterfaceValidationLimits.check
  split
  · exact reject_ne_panicked _
  · simp

theorem checkedRange_eq_ok {offset length : UInt64} {fileLength : Nat} {range : Range} :
    checkedRange offset length fileLength = .ok range ↔
      range = ⟨offset.toNat, offset.toNat + length.toNat⟩ ∧ range.stop < wordLimit ∧ range.stop ≤ fileLength := by
  unfold checkedRange
  simp only
  split
  · split
    · rename_i outside
      simp only [reduceCtorEq, false_iff, not_and]
      intro same _
      rw [same]
      exact not_le.mpr outside
    · rename_i fits inside
      simp only [Except.ok.injEq]
      constructor
      · intro same
        subst same
        exact ⟨rfl, fits, not_lt.mp inside⟩
      · intro facts
        exact facts.1.symm
  · rename_i overflow
    simp only [reduceCtorEq, false_iff, not_and]
    intro same fits
    rw [same] at fits
    exact absurd fits overflow

theorem payload_eq_some {entry : DirectoryEntry} {bytes : List UInt8} (word : entry.range.stop < wordLimit)
    (inside : entry.range.stop ≤ bytes.length) :
    entry.payload bytes = some (Lib.slice bytes entry.range.start entry.range.stop) := by
  unfold payload
  rw [if_pos (by exact word), if_pos (by exact inside)]
  rfl

/-! ## 2. One entry -/

/-- The entry fits into the bytes after what the scan remembers. -/
structure Fits (bytes : List UInt8) (directoryRange : Range) (limits : InterfaceValidationLimits) (scan : Scan)
  (entry : DirectoryEntry) : Prop where
  tag_after : ∀ previous, scan.previousTag = some previous → previous < entry.rawTag
  records : entry.recordCount.toNat ≤ limits.recordsPerSection.toNat
  allocation_word : scan.decodedAllocation + entry.decodedLength.toNat < wordLimit
  allocation : scan.decodedAllocation + entry.decodedLength.toNat ≤ limits.decodedAllocation.toNat
  word : entry.range.stop < wordLimit
  inside : entry.range.stop ≤ bytes.length
  clear_header : rangesOverlap entry.range headerRange = false
  clear_directory : rangesOverlap entry.range directoryRange = false
  clear_previous : ∀ previous, scan.previousRange = some previous → rangesOverlap entry.range previous = false

/-- The scan behind an entry. -/
def Scan.after (scan : Scan) (entry : DirectoryEntry) : Scan where
  index := scan.index + 1
  previousTag := some entry.rawTag
  previousRange := some entry.range
  decodedAllocation := scan.decodedAllocation + entry.decodedLength.toNat

section Entry

variable {codec : FrameCodec} {bytes : List UInt8} {directoryRange : Range}
  {limits : InterfaceValidationLimits} {scan next : Scan} {context : InterfaceValidationContext}
  {entry decoded : DirectoryEntry} {chunk : List UInt8} {placed : Nat × Range}

theorem placeEntry_eq_ok : placeEntry bytes directoryRange limits scan context decoded = .ok placed ↔
    Fits bytes directoryRange limits scan decoded ∧
      placed = (scan.decodedAllocation + decoded.decodedLength.toNat, decoded.range) := by
  simp only [placeEntry, except_bind_eq_ok, rejectIf_eq_ok, check_eq_ok, mapErr_eq_ok, checkedRange_eq_ok]
  constructor
  · intro ok
    obtain ⟨_, order, _, records, _, word, _, allocation, range, ⟨same, fits, inside⟩, _, header, _, directory,
      _, previous, result⟩ := ok
    subst same
    cases result
    refine ⟨⟨?_, records, ?_, allocation, fits, inside, header, directory, ?_⟩, rfl⟩
    · intro tag known
      simpa [known] using order
    · simpa using word
    · intro range known
      simpa [known, DirectoryEntry.range] using previous
  · intro facts
    obtain ⟨fits, rfl⟩ := facts
    refine ⟨(), ?_, (), fits.records, (), ?_, (), fits.allocation, _, ⟨rfl, fits.word, fits.inside⟩, (),
      fits.clear_header, (), fits.clear_directory, (), ?_, rfl⟩
    · cases known : scan.previousTag with
      | none => rfl
      | some tag => simpa using fits.tag_after tag known
    · simpa using fits.allocation_word
    · cases known : scan.previousRange with
      | none => rfl
      | some range => simpa [DirectoryEntry.range] using fits.clear_previous range known

/-- **One step of the loop** accepts an entry that keeps its contract, fits, and has a valid frame. -/
theorem decodeEntry_eq_ok : decodeEntry codec bytes directoryRange limits scan chunk = .ok (entry, next) ↔
    decode chunk = .ok entry ∧
  (let context := .directoryEntry scan.index (leadingTag chunk)
   validateSectionContract context (InterfaceSectionTag.fromWireValue entry.rawTag) entry = .ok () ∧
    Fits bytes directoryRange limits scan entry ∧
    checkFrame codec bytes context entry entry.range = .ok ()) ∧
  next = scan.after entry := by
  simp only [decodeEntry, except_bind_eq_ok, mapErr_eq_ok, placeEntry_eq_ok]
  constructor
  · intro ok
    obtain ⟨found, decoded, _, contract, placed, ⟨fits, rfl⟩, _, frame, result⟩ := ok
    cases result
    exact ⟨decoded, ⟨contract, fits, frame⟩, rfl⟩
  · intro facts
    obtain ⟨decoded, ⟨contract, fits, frame⟩, rfl⟩ := facts
    exact ⟨entry, decoded, (), contract, _, ⟨fits, rfl⟩, (), frame, rfl⟩

end Entry

/-! ## 3. The whole directory -/

/-- The entries fit one after another. -/
def Follows (bytes : List UInt8) (directoryRange : Range) (limits : InterfaceValidationLimits) :
  Scan → List DirectoryEntry → Prop
  | _, [] => True
  | scan, entry :: entries =>
    Fits bytes directoryRange limits scan entry ∧ Follows bytes directoryRange limits (scan.after entry) entries

section Directory

variable {codec : FrameCodec} {bytes : List UInt8} {directoryRange : Range}
  {limits : InterfaceValidationLimits} {scan : Scan} {entries : List DirectoryEntry}
  {chunks : List (List UInt8)}

/-- The entries of an accepted directory are those of its chunks, and fit one after another. -/
theorem follows_of_decodeEntries (ok : decodeEntries codec bytes directoryRange limits scan chunks = .ok entries) :
    List.Forall₂ (fun chunk entry => decode chunk = .ok entry) chunks entries ∧
      Follows bytes directoryRange limits scan entries := by
  induction chunks generalizing scan entries with
  | nil =>
    cases ok
    exact ⟨List.Forall₂.nil, trivial⟩
  | cons chunk chunks ih =>
    obtain ⟨⟨entry, next⟩, first, ok⟩ := except_bind_eq_ok.mp ok
    obtain ⟨others, rest, result⟩ := except_bind_eq_ok.mp ok
    cases result
    obtain ⟨decoded, ⟨_, fits, _⟩, rfl⟩ := decodeEntry_eq_ok.mp first
    obtain ⟨same, follows⟩ := ih rest
    exact ⟨List.Forall₂.cons decoded same, fits, follows⟩

/-- The entry keeps the contract of its section and has a valid frame, whatever the messages would say. -/
structure WellFormed (codec : FrameCodec) (bytes : List UInt8) (entry : DirectoryEntry) : Prop where
  contract : ∀ context,
    validateSectionContract context (InterfaceSectionTag.fromWireValue entry.rawTag) entry = .ok ()
  frame : ∀ context, checkFrame codec bytes context entry entry.range = .ok ()

/-- Well-formed entries that fit one after another are accepted. -/
theorem decodeEntries_encode (wellFormed : ∀ entry ∈ entries, WellFormed codec bytes entry)
    (follows : Follows bytes directoryRange limits scan entries) :
    decodeEntries codec bytes directoryRange limits scan (entries.map encode) = .ok entries := by
  induction entries generalizing scan with
  | nil => rfl
  | cons entry entries ih =>
    obtain ⟨fits, follows⟩ := follows
    have own := wellFormed entry List.mem_cons_self
    have first : decodeEntry codec bytes directoryRange limits scan entry.encode = .ok (entry, scan.after entry) :=
      decodeEntry_eq_ok.mpr
        ⟨decode_encode entry, ⟨own.contract _, fits, own.frame _⟩, rfl⟩
    have rest := ih (fun other member => wellFormed other (List.mem_cons_of_mem entry member)) follows
    rw [List.map_cons, decodeEntries, first]
    simp only [except_ok_bind, rest]
    rfl

section

variable (follows : Follows bytes directoryRange limits scan entries)
include follows

/-- What every entry of a directory that fits one after another satisfies by itself. -/
theorem Follows.each : ∀ entry ∈ entries, entry.range.stop < wordLimit ∧ entry.range.stop ≤ bytes.length ∧
      rangesOverlap entry.range headerRange = false ∧ rangesOverlap entry.range directoryRange = false := by
  induction entries generalizing scan with
  | nil => simp
  | cons entry entries ih =>
    intro other member
    obtain ⟨fits, follows⟩ := follows
    cases member with
    | head => exact ⟨fits.word, fits.inside, fits.clear_header, fits.clear_directory⟩
    | tail _ member => exact ih follows other member

/-- The tags come one after another, behind the tag that the scan remembers. -/
theorem Follows.ascending :
    (∀ previous, scan.previousTag = some previous → ∀ entry ∈ entries, previous < entry.rawTag) ∧
      entries.Pairwise fun left right => left.rawTag < right.rawTag := by
  induction entries generalizing scan with
  | nil => simp
  | cons entry entries ih =>
    obtain ⟨fits, follows⟩ := follows
    obtain ⟨later, ascending⟩ := ih follows
    have behind : ∀ other ∈ entries, entry.rawTag < other.rawTag := later entry.rawTag rfl
    refine ⟨?_, List.pairwise_cons.mpr ⟨behind, ascending⟩⟩
    intro previous known other member
    have first := fits.tag_after previous known
    cases member with
    | head => exact first
    | tail _ member => exact UInt32.lt_trans first (behind other member)

theorem Follows.allocation (within : scan.decodedAllocation ≤ limits.decodedAllocation.toNat) :
    scan.decodedAllocation + (entries.map fun entry => entry.decodedLength.toNat).sum ≤
      limits.decodedAllocation.toNat := by
  induction entries generalizing scan with
  | nil => simpa using within
  | cons entry entries ih =>
    obtain ⟨fits, follows⟩ := follows
    have rest := ih follows fits.allocation
    simp only [List.map_cons, List.sum_cons, Scan.after] at rest ⊢
    omega

/-- Neighbouring payloads do not overlap. -/
theorem Follows.neighbours {index : Nat} {left right : DirectoryEntry} (first : entries[index]? = some left)
    (second : entries[index + 1]? = some right) : rangesOverlap right.range left.range = false := by
  induction entries generalizing scan index with
  | nil => cases first
  | cons entry entries ih =>
    obtain ⟨fits, follows⟩ := follows
    cases index with
    | succ index => exact ih follows first second
    | zero =>
      cases first
      cases entries with
      | nil => cases second
      | cons other others =>
        cases second
        exact follows.1.clear_previous _ rfl

end

/-! ## 4. No panics -/

variable {context : InterfaceValidationContext}

theorem validateSectionContract_ne_panicked {tag : Option InterfaceSectionTag} {decoded : DirectoryEntry} :
    validateSectionContract context tag decoded ≠ .error .panicked := by
  simp only [validateSectionContract, malformed, reject]
  repeat' split
  all_goals simp

theorem placeEntry_ne_panicked {decoded : DirectoryEntry} :
    placeEntry bytes directoryRange limits scan context decoded ≠ .error .panicked := by
  simp only [placeEntry, ne_eq, except_bind_eq_error, not_or, not_exists, not_and]
  refine ⟨rejectIf_ne_panicked, fun _ _ => ⟨check_ne_panicked, fun _ _ => ⟨rejectIf_ne_panicked, fun _ _ =>
    ⟨check_ne_panicked, fun _ _ => ⟨mapErr_ne_panicked, fun _ _ => ⟨rejectIf_ne_panicked, fun _ _ =>
    ⟨rejectIf_ne_panicked, fun _ _ => ⟨rejectIf_ne_panicked, fun _ _ => ?_⟩⟩⟩⟩⟩⟩⟩⟩
  exact pure_ne_panicked

theorem checkFrame_ne_panicked {entry : DirectoryEntry}
    {range : Range} : checkFrame codec bytes context entry range ≠ .error .panicked := by
  unfold checkFrame
  split
  · split
    · exact reject_ne_panicked _
    · exact validateZstdFrame_ne_panicked
  · simp

theorem decodeEntry_ne_panicked {chunk : List UInt8} :
    decodeEntry codec bytes directoryRange limits scan chunk ≠ .error .panicked := by
  simp only [decodeEntry, ne_eq, except_bind_eq_error, not_or, not_exists, not_and]
  refine ⟨mapErr_ne_panicked, fun _ _ => ⟨validateSectionContract_ne_panicked, fun _ _ =>
    ⟨placeEntry_ne_panicked, fun _ _ => ⟨checkFrame_ne_panicked, fun _ _ => ?_⟩⟩⟩⟩
  exact pure_ne_panicked

theorem decodeEntries_ne_panicked :
    decodeEntries codec bytes directoryRange limits scan chunks ≠ .error .panicked := by
  induction chunks generalizing scan with
  | nil => simp [decodeEntries]
  | cons chunk chunks ih =>
    simp only [decodeEntries, ne_eq, except_bind_eq_error, not_or, not_exists, not_and]
    exact ⟨decodeEntry_ne_panicked, fun _ _ => ⟨ih, fun _ _ => pure_ne_panicked⟩⟩

end Directory

section Interface

variable {digest : Digest} {codec : FrameCodec} {bytes : List UInt8} {policy : InterfaceValidationPolicy}

/-- The subtractions for the messages are made where they do not underflow. -/
theorem validateHeader_ne_panicked {decoded : DecodedHeader} :
    validateHeader decoded bytes policy ≠ .error .panicked := by
  unfold validateHeader
  simp only
  repeat' split
  · exact reject_ne_panicked _
  · exact reject_ne_panicked _
  · exact reject_ne_panicked _
  · exact reject_ne_panicked _
  · exact reject_ne_panicked _
  · rename_i short
    rw [subtract, if_pos short.le]
    exact reject_ne_panicked _
  · rename_i long _
    rw [subtract, if_pos (not_lt.mp long)]
    exact reject_ne_panicked _
  · exact malformed_ne_panicked _ _
  · exact pure_ne_panicked

theorem decodeDirectory_ne_panicked {range : Range} (order : range.start ≤ range.stop)
    (inside : range.stop ≤ bytes.length) : decodeDirectory codec bytes range policy ≠ .error .panicked := by
  simp only [decodeDirectory, index, if_pos (And.intro order inside), ne_eq, except_bind_eq_error, not_or,
    not_exists, not_and, except_ok_bind]
  exact ⟨check_ne_panicked, fun _ _ => decodeEntries_ne_panicked⟩

theorem validateSectionHashes_ne_panicked {index : Nat} {directory : List DirectoryEntry} :
    validateSectionHashes digest bytes index directory ≠ .error .panicked := by
  induction directory generalizing index with
  | nil => simp [validateSectionHashes]
  | cons entry entries ih =>
    simp only [validateSectionHashes, ne_eq, except_bind_eq_error, not_or, not_exists, not_and]
    refine ⟨?_, fun _ _ => ih⟩
    simp only [validateSectionHash, reject]
    repeat' split
    all_goals simp

theorem validateHashes_ne_panicked {header : InterfaceHeader} {directory : List DirectoryEntry} :
    validateHashes digest header directory bytes ≠ .error .panicked := by
  simp only [validateHashes, ne_eq, except_bind_eq_error, not_or, not_exists, not_and]
  refine ⟨validateSectionHashes_ne_panicked, fun _ _ => ?_⟩
  simp only [reject]
  repeat' split
  all_goals simp [pure, Except.pure]

/-- **No bytes make the validation panic.** -/
theorem tryNew_ne_panicked : ValidatedPackageInterface.tryNew digest codec bytes policy ≠ .error .panicked := by
  simp only [ValidatedPackageInterface.tryNew, ne_eq, except_bind_eq_error, not_or, not_exists, not_and]
  refine ⟨check_ne_panicked, fun _ _ => ⟨mapErr_ne_panicked, fun decoded _ =>
    ⟨validateHeader_ne_panicked, fun _ _ => ⟨mapErr_ne_panicked, fun range checked => ⟨?_, fun directory _ =>
    ⟨validateHashes_ne_panicked, fun _ _ => pure_ne_panicked⟩⟩⟩⟩⟩⟩
  obtain ⟨same, _, inside⟩ := checkedRange_eq_ok.mp (mapErr_eq_ok.mp checked)
  refine decodeDirectory_ne_panicked ?_ inside
  rw [same]
  exact Nat.le_add_right _ _

theorem decodePayload_ne_panicked {context : InterfaceValidationContext} {entry : DirectoryEntry}
    {stored : List UInt8} {encoding : InterfaceSectionEncoding} :
    decodePayload codec context entry stored encoding ≠ .error .panicked := by
  cases encoding with
  | raw => exact pure_ne_panicked
  | zstdFrame =>
    simp only [decodePayload, ne_eq, except_bind_eq_error, not_or, not_exists, not_and]
    exact ⟨decodeZstdFrame_ne_panicked, fun _ _ => pure_ne_panicked⟩

theorem decodeAndVerifySection_ne_panicked {index : Nat} {entry : DirectoryEntry} {stored : List UInt8} :
    decodeAndVerifySection digest codec index entry stored ≠ .error .panicked := by
  unfold decodeAndVerifySection
  simp only
  split
  · exact malformed_ne_panicked _ _
  intro panics
  obtain panics | ⟨decoded, _, panics⟩ := except_bind_eq_error.mp panics
  · exact decodePayload_ne_panicked panics
  · split at panics
    · exact malformed_ne_panicked _ _ panics
    split at panics
    · exact reject_ne_panicked _ panics
    · cases panics

/-- **No lookup by index panics.** -/
theorem sectionByIndex_ne_panicked {interface : ValidatedPackageInterface} {index : Nat} :
    interface.sectionByIndex digest codec index ≠ .error .panicked := by
  unfold ValidatedPackageInterface.sectionByIndex
  split
  · exact malformed_ne_panicked _ _
  split
  · exact reject_ne_panicked _
  intro panics
  obtain panics | ⟨decoded, _, panics⟩ := except_bind_eq_error.mp panics
  · exact decodeAndVerifySection_ne_panicked panics
  split at panics
  · exact malformed_ne_panicked _ _ panics
  · cases panics

/-- **No lookup by tag panics.** -/
theorem section_ne_panicked {interface : ValidatedPackageInterface} {tag : InterfaceSectionTag} :
    interface.section digest codec tag ≠ .error .panicked := by
  unfold ValidatedPackageInterface.section
  split
  · simp
  split
  · exact malformed_ne_panicked _ _
  split
  · simp
  simp only [ne_eq, except_bind_eq_error, not_or, not_exists, not_and]
  exact ⟨sectionByIndex_ne_panicked, fun _ _ => pure_ne_panicked⟩

end Interface

end Bray.Container
