/-
  File:      Bray/Container/Wire.lean
  Subject:   THE WIRE FORMAT: reading and writing headers and directory entries.

  Fields have fixed widths and stand one after another. A header or an entry is read back from the bytes
  that its fields make up. Whatever is read as a header has the length of one.
-/
import Bray.Container.Data
import Bray.Lib.Check

namespace Bray.Container

open Lib (Cursor leBytes leValue except_bind_eq_ok except_ok_bind)

/-! ## 1. Readers -/

/-- `WireDecodeError`. -/
inductive WireDecodeError
  | truncated (offset expectedLength actualLength : Nat)
  | trailingBytes (offset count : Nat)

def WireDecodeError.offset : WireDecodeError → Nat
  | .truncated offset _ _ => offset
  | .trailingBytes offset _ => offset

/-- `WireReader`: the bytes and the position of the next one. -/
abbrev WireReader := Cursor

namespace WireReader

/-- `read_bytes`, and `read_array` for a length that is fixed. -/
def readBytes (reader : WireReader) (length : Nat) : Except WireDecodeError (List UInt8 × WireReader) :=
  match reader.take? length with
  | some taken => .ok taken
  | none => .error (.truncated reader.position length reader.rest.length)

/-- `from_le_bytes` of the next bytes. -/
def readNumber (reader : WireReader) (width : Nat) : Except WireDecodeError (Nat × WireReader) := do
  let (bytes, reader) ← reader.readBytes width
  return (leValue bytes, reader)

def readU8 (reader : WireReader) : Except WireDecodeError (UInt8 × WireReader) := do
  let (value, reader) ← reader.readNumber 1
  return (UInt8.ofNat value, reader)

def readU16 (reader : WireReader) : Except WireDecodeError (UInt16 × WireReader) := do
  let (value, reader) ← reader.readNumber 2
  return (UInt16.ofNat value, reader)

def readU32 (reader : WireReader) : Except WireDecodeError (UInt32 × WireReader) := do
  let (value, reader) ← reader.readNumber 4
  return (UInt32.ofNat value, reader)

def readU64 (reader : WireReader) : Except WireDecodeError (UInt64 × WireReader) := do
  let (value, reader) ← reader.readNumber 8
  return (UInt64.ofNat value, reader)

/-- `read_array` of the length of a hash. -/
def readHash (reader : WireReader) : Except WireDecodeError (Hash × WireReader) :=
  match taken : reader.take? 32 with
  | some (bytes, next) => .ok (⟨bytes, (Cursor.take?_eq_some taken).2.2.2.1⟩, next)
  | none => .error (.truncated reader.position 32 reader.rest.length)

/-! What a reader takes where a field was written. -/

section Behind

variable (before after : List UInt8)

theorem readBytes_behind (block : List UInt8) {length : Nat} (size : block.length = length) :
    readBytes (Cursor.behind before (block ++ after)) length =
      .ok (block, Cursor.behind (before ++ block) after) := by
  rw [readBytes, Cursor.take?_behind before block after size]

theorem readNumber_behind {width value : Nat} (fits : value < 256 ^ width) :
    readNumber (Cursor.behind before (leBytes width value ++ after)) width =
      .ok (value, Cursor.behind (before ++ leBytes width value) after) := by
  rw [readNumber, readBytes_behind before after _ (Lib.length_leBytes width value)]
  simp only [except_ok_bind, Lib.leValue_leBytes fits]
  rfl

theorem readU8_behind (value : UInt8) : readU8 (Cursor.behind before (leBytes 1 value.toNat ++ after)) =
    .ok (value, Cursor.behind (before ++ leBytes 1 value.toNat) after) := by
  rw [readU8, readNumber_behind before after value.toNat_lt]
  simp only [except_ok_bind, UInt8.ofNat_toNat]
  rfl

theorem readU16_behind (value : UInt16) : readU16 (Cursor.behind before (leBytes 2 value.toNat ++ after)) =
    .ok (value, Cursor.behind (before ++ leBytes 2 value.toNat) after) := by
  rw [readU16, readNumber_behind before after value.toNat_lt]
  simp only [except_ok_bind, UInt16.ofNat_toNat]
  rfl

theorem readU32_behind (value : UInt32) : readU32 (Cursor.behind before (leBytes 4 value.toNat ++ after)) =
    .ok (value, Cursor.behind (before ++ leBytes 4 value.toNat) after) := by
  rw [readU32, readNumber_behind before after value.toNat_lt]
  simp only [except_ok_bind, UInt32.ofNat_toNat]
  rfl

theorem readU64_behind (value : UInt64) : readU64 (Cursor.behind before (leBytes 8 value.toNat ++ after)) =
    .ok (value, Cursor.behind (before ++ leBytes 8 value.toNat) after) := by
  rw [readU64, readNumber_behind before after value.toNat_lt]
  simp only [except_ok_bind, UInt64.ofNat_toNat]
  rfl

theorem readHash_behind (hash : Hash) : readHash (Cursor.behind before (hash.val ++ after)) =
    .ok (hash, Cursor.behind (before ++ hash.val) after) := by
  have taken := Cursor.take?_behind before hash.val after hash.property
  unfold readHash
  split
  · rename_i bytes next found
    rw [taken] at found
    obtain ⟨rfl, rfl⟩ := found
    rfl
  · rename_i missing
    rw [taken] at missing
    cases missing

end Behind

/-! Where a successful read leaves the reader. -/

/-- The reader has advanced by a length and stands inside its bytes. -/
def Advanced (reader next : WireReader) (length : Nat) : Prop :=
  next.bytes = reader.bytes ∧ next.position = reader.position + length ∧ next.position ≤ next.bytes.length

variable {reader next : WireReader}

theorem readBytes_advanced {length : Nat} {bytes : List UInt8}
    (read : reader.readBytes length = .ok (bytes, next)) : Advanced reader next length := by
  unfold readBytes at read
  split at read
  · rename_i taken found
    cases read
    obtain ⟨same, position, inside, _⟩ := Cursor.take?_eq_some found
    exact ⟨same, position, same ▸ inside⟩
  · cases read

theorem readNumber_advanced {width value : Nat}
    (read : reader.readNumber width = .ok (value, next)) : Advanced reader next width := by
  obtain ⟨⟨bytes, after⟩, taken, result⟩ := except_bind_eq_ok.mp read
  cases result
  exact readBytes_advanced taken

theorem readU16_advanced {value : UInt16} (read : reader.readU16 = .ok (value, next)) : Advanced reader next 2 := by
  obtain ⟨⟨number, after⟩, taken, result⟩ := except_bind_eq_ok.mp read
  cases result
  exact readNumber_advanced taken

theorem readU32_advanced {value : UInt32} (read : reader.readU32 = .ok (value, next)) : Advanced reader next 4 := by
  obtain ⟨⟨number, after⟩, taken, result⟩ := except_bind_eq_ok.mp read
  cases result
  exact readNumber_advanced taken

theorem readU64_advanced {value : UInt64} (read : reader.readU64 = .ok (value, next)) : Advanced reader next 8 := by
  obtain ⟨⟨number, after⟩, taken, result⟩ := except_bind_eq_ok.mp read
  cases result
  exact readNumber_advanced taken

theorem readHash_advanced {hash : Hash} (read : reader.readHash = .ok (hash, next)) : Advanced reader next 32 := by
  unfold readHash at read
  split at read
  · rename_i bytes after found
    cases read
    obtain ⟨same, position, inside, _⟩ := Cursor.take?_eq_some found
    exact ⟨same, position, same ▸ inside⟩
  · cases read

end WireReader

/-! ## 2. Headers -/

namespace InterfaceHeader

/-- `InterfaceHeader::decode`. -/
def decode (bytes : List UInt8) : Except WireDecodeError DecodedHeader := do
  let reader : WireReader := ⟨bytes, 0⟩
  let (magic, reader) ← reader.readBytes 8
  let (formatRevision, reader) ← reader.readU16
  let (languageRevision, reader) ← reader.readU16
  let (byteOrderMarker, reader) ← reader.readU32
  let (requiredFlags, reader) ← reader.readU64
  let (declaredFileLength, reader) ← reader.readU64
  let (directoryOffset, reader) ← reader.readU64
  let (directoryLength, reader) ← reader.readU64
  let (contentHash, reader) ← reader.readHash
  let (artifactHash, _) ← reader.readHash
  return {
    magic := magic
    byteOrderMarker := byteOrderMarker
    header := {
      formatRevision := formatRevision
      languageRevision := languageRevision
      requiredFlags := requiredFlags
      declaredFileLength := declaredFileLength
      directoryOffset := directoryOffset
      directoryLength := directoryLength
      contentHash := contentHash
      artifactHash := artifactHash } }

/-- The fields before the hashes, as `encode_header` writes them. -/
def identityBytes (header : InterfaceHeader) : List UInt8 :=
  Container.magic ++ (leBytes 2 header.formatRevision.toNat ++ (leBytes 2 header.languageRevision.toNat ++
    (leBytes 4 Container.byteOrderMarker.toNat ++ (leBytes 8 header.requiredFlags.toNat ++
    (leBytes 8 header.declaredFileLength.toNat ++ (leBytes 8 header.directoryOffset.toNat ++
    leBytes 8 header.directoryLength.toNat))))))

@[simp] theorem length_identityBytes (header : InterfaceHeader) : header.identityBytes.length = 48 := by
  simp [identityBytes, Container.magic]

/-- **A header is read back** from its fields. -/
theorem decode_identityBytes (header : InterfaceHeader) (after : List UInt8) :
    decode (header.identityBytes ++ (header.contentHash.val ++ (header.artifactHash.val ++ after))) =
      .ok ⟨Container.magic, Container.byteOrderMarker, header⟩ := by
  have start : ∀ bytes : List UInt8, (⟨bytes, 0⟩ : Cursor) = Cursor.behind [] bytes := fun _ => rfl
  simp only [decode, identityBytes, List.append_assoc, start]
  simp only [WireReader.readBytes_behind _ _ Container.magic Container.length_magic,
    WireReader.readU16_behind, WireReader.readU32_behind, WireReader.readU64_behind,
    WireReader.readHash_behind, except_ok_bind]
  rfl

/-- Bytes that hold a header are as long as one. -/
theorem length_of_decode {bytes : List UInt8} {decoded : DecodedHeader} (ok : decode bytes = .ok decoded) :
    InterfaceHeader.length ≤ bytes.length := by
  obtain ⟨⟨_, _⟩, magic, ok⟩ := except_bind_eq_ok.mp ok
  obtain ⟨⟨_, _⟩, format, ok⟩ := except_bind_eq_ok.mp ok
  obtain ⟨⟨_, _⟩, language, ok⟩ := except_bind_eq_ok.mp ok
  obtain ⟨⟨_, _⟩, order, ok⟩ := except_bind_eq_ok.mp ok
  obtain ⟨⟨_, _⟩, flags, ok⟩ := except_bind_eq_ok.mp ok
  obtain ⟨⟨_, _⟩, file, ok⟩ := except_bind_eq_ok.mp ok
  obtain ⟨⟨_, _⟩, offset, ok⟩ := except_bind_eq_ok.mp ok
  obtain ⟨⟨_, _⟩, directory, ok⟩ := except_bind_eq_ok.mp ok
  obtain ⟨⟨_, _⟩, content, ok⟩ := except_bind_eq_ok.mp ok
  obtain ⟨⟨_, last⟩, artifact, ok⟩ := except_bind_eq_ok.mp ok
  have first := WireReader.readBytes_advanced magic
  have second := WireReader.readU16_advanced format
  have third := WireReader.readU16_advanced language
  have fourth := WireReader.readU32_advanced order
  have fifth := WireReader.readU64_advanced flags
  have sixth := WireReader.readU64_advanced file
  have seventh := WireReader.readU64_advanced offset
  have eighth := WireReader.readU64_advanced directory
  have ninth := WireReader.readHash_advanced content
  have tenth := WireReader.readHash_advanced artifact
  unfold WireReader.Advanced at *
  have same : last.bytes = bytes := by simp_all
  have position : last.position = InterfaceHeader.length := by simp_all [InterfaceHeader.length]
  rw [← position, ← same]
  exact tenth.2.2

end InterfaceHeader

/-! ## 3. Directory entries -/

namespace DirectoryEntry

/-- `DirectoryEntry::decode`. `DecodedDirectoryEntry` has the fields of an entry, and `from_decoded` copies
them. -/
def decode (bytes : List UInt8) : Except WireDecodeError DirectoryEntry := do
  let reader : WireReader := ⟨bytes, 0⟩
  let (rawTag, reader) ← reader.readU32
  let (sectionRevision, reader) ← reader.readU16
  let (rawCompatibility, reader) ← reader.readU8
  let (rawEncoding, reader) ← reader.readU8
  let (offset, reader) ← reader.readU64
  let (encodedLength, reader) ← reader.readU64
  let (decodedLength, reader) ← reader.readU64
  let (recordCount, reader) ← reader.readU64
  let (checksum, reader) ← reader.readHash
  let (contentHash, _) ← reader.readHash
  return {
    rawTag := rawTag
    sectionRevision := sectionRevision
    rawCompatibility := rawCompatibility
    rawEncoding := rawEncoding
    offset := offset
    encodedLength := encodedLength
    decodedLength := decodedLength
    recordCount := recordCount
    checksum := checksum
    contentHash := contentHash }

/-- `encode_directory_entry`. -/
def encode (entry : DirectoryEntry) : List UInt8 :=
  leBytes 4 entry.rawTag.toNat ++ (leBytes 2 entry.sectionRevision.toNat ++
    (leBytes 1 entry.rawCompatibility.toNat ++ (leBytes 1 entry.rawEncoding.toNat ++
    (leBytes 8 entry.offset.toNat ++ (leBytes 8 entry.encodedLength.toNat ++
    (leBytes 8 entry.decodedLength.toNat ++ (leBytes 8 entry.recordCount.toNat ++
    (entry.checksum.val ++ entry.contentHash.val))))))))

@[simp] theorem length_encode (entry : DirectoryEntry) : entry.encode.length = DirectoryEntry.length := by
  simp [encode, DirectoryEntry.length]

/-- **An entry is read back** from its bytes. -/
theorem decode_encode (entry : DirectoryEntry) : decode entry.encode = .ok entry := by
  have start : ∀ bytes : List UInt8, (⟨bytes, 0⟩ : Cursor) = Cursor.behind [] bytes := fun _ => rfl
  have last := WireReader.readHash_behind
    ((((((((([] ++ leBytes 4 entry.rawTag.toNat) ++ leBytes 2 entry.sectionRevision.toNat) ++
      leBytes 1 entry.rawCompatibility.toNat) ++ leBytes 1 entry.rawEncoding.toNat) ++
      leBytes 8 entry.offset.toNat) ++ leBytes 8 entry.encodedLength.toNat) ++
      leBytes 8 entry.decodedLength.toNat) ++ leBytes 8 entry.recordCount.toNat) ++ entry.checksum.val)
    [] entry.contentHash
  rw [List.append_nil] at last
  simp only [decode, encode, start]
  simp only [WireReader.readU8_behind, WireReader.readU16_behind, WireReader.readU32_behind,
    WireReader.readU64_behind, WireReader.readHash_behind, except_ok_bind, last]
  rfl

/-- The first field of an entry, as the directory loop reads it for its messages. -/
def leadingTag (chunk : List UInt8) : UInt32 :=
  if 4 ≤ chunk.length then UInt32.ofNat (leValue (chunk.take 4)) else 0

end DirectoryEntry

end Bray.Container
