/-
  File:      Bray/Lib/Bytes.lean
  Subject:   BYTES: little-endian numbers, reading a byte sequence from a position, and replacing a part of
  a byte sequence by another of its length.

  A writer puts fixed-width numbers and blocks one after another. A reader remembers a position and takes
  the next bytes from there. The two meet in one lemma: a reader that stands where a block was written
  takes exactly that block, and stands behind it.
-/
import Mathlib.Data.List.Basic
import Mathlib.Tactic.Ring

namespace Bray.Lib

open List

/-! ## 1. Little-endian numbers -/

/-- The bytes of a number in a field of a given width, the lowest first. -/
def leBytes : Nat → Nat → List UInt8
  | 0, _ => []
  | width + 1, value => UInt8.ofNat value :: leBytes width (value / 256)

/-- The number that the bytes spell. -/
def leValue : List UInt8 → Nat
  | [] => 0
  | byte :: bytes => byte.toNat + 256 * leValue bytes

@[simp] theorem length_leBytes (width value : Nat) : (leBytes width value).length = width := by
  induction width generalizing value with
  | zero => rfl
  | succ width ih => simp [leBytes, ih]

/-- A number that fits its field is read back. -/
theorem leValue_leBytes {width value : Nat} (fits : value < 256 ^ width) :
    leValue (leBytes width value) = value := by
  induction width generalizing value with
  | zero =>
    have : value = 0 := by simpa using fits
    simp [leBytes, leValue, this]
  | succ width ih =>
    have quotient : value / 256 < 256 ^ width := by
      exact Nat.div_lt_of_lt_mul (by omega)
    have byte : (UInt8.ofNat value).toNat = value % 256 := by simp [UInt8.toNat_ofNat']
    rw [leBytes, leValue, ih quotient, byte]
    exact Nat.mod_add_div value 256

/-! ## 2. Reading from a position -/

/-- A byte sequence and the position of its next unread byte. -/
structure Cursor where
  bytes : List UInt8
  position : Nat

namespace Cursor

/-- What has not been read. -/
def rest (cursor : Cursor) : List UInt8 := cursor.bytes.drop cursor.position

/-- The next bytes and the cursor behind them, where there are that many. -/
def take? (cursor : Cursor) (length : Nat) : Option (List UInt8 × Cursor) :=
  if cursor.position + length ≤ cursor.bytes.length then
    some (cursor.rest.take length, { cursor with position := cursor.position + length })
  else none

/-- The cursor behind a part that has been read. -/
def behind (before after : List UInt8) : Cursor := ⟨before ++ after, before.length⟩

@[simp] theorem rest_behind (before after : List UInt8) : (behind before after).rest = after := by
  simp [rest, behind]

/-- **A block is read where it was written**, and the cursor stands behind it. -/
theorem take?_behind (before block after : List UInt8) {length : Nat} (size : block.length = length) :
    (behind before (block ++ after)).take? length = some (block, behind (before ++ block) after) := by
  have fits : before.length + length ≤ (before ++ (block ++ after)).length := by
    simp only [length_append]
    omega
  rw [take?, if_pos (by exact fits), rest_behind, take_left' size]
  simp [behind, size]

/-- What a successful read took, and where it left the cursor. -/
theorem take?_eq_some {cursor next : Cursor} {length : Nat} {block : List UInt8}
    (taken : cursor.take? length = some (block, next)) :
    next.bytes = cursor.bytes ∧ next.position = cursor.position + length ∧
      next.position ≤ cursor.bytes.length ∧ block.length = length ∧
      block = (cursor.bytes.drop cursor.position).take length := by
  unfold take? at taken
  split at taken
  · rename_i fits
    obtain ⟨rfl, rfl⟩ := taken
    refine ⟨rfl, rfl, fits, ?_, rfl⟩
    simp only [rest, length_take, length_drop]
    omega
  · cases taken

end Cursor

/-! ## 3. Parts of a byte sequence -/

/-- The bytes from a position up to another. -/
def slice (bytes : List UInt8) (start stop : Nat) : List UInt8 := (bytes.drop start).take (stop - start)

/-- The bytes with a part of them replaced by another of the same length. -/
def splice (bytes : List UInt8) (at_ : Nat) (block : List UInt8) : List UInt8 :=
  bytes.take at_ ++ block ++ bytes.drop (at_ + block.length)

/-- A part is replaced between what stands before and after it. -/
theorem splice_between (before old block after : List UInt8) {at_ : Nat} (position : before.length = at_)
    (size : old.length = block.length) :
    splice (before ++ (old ++ after)) at_ block = before ++ (block ++ after) := by
  subst position
  have skip : (before ++ (old ++ after)).drop (before.length + block.length) = after := by
    rw [← drop_drop, drop_left, ← size, drop_left]
  rw [splice, take_left, skip, append_assoc]

/-- A part is read where it stands. -/
theorem slice_between (before block after : List UInt8) {start stop : Nat} (first : before.length = start)
    (last : before.length + block.length = stop) : slice (before ++ (block ++ after)) start stop = block := by
  subst first last
  rw [slice, drop_left, Nat.add_sub_cancel_left, take_left]

/-! ## 4. Parts of one length -/

/-- The parts of a length, one after another, without what remains at the end. -/
def chunksExact (length : Nat) (bytes : List UInt8) : List (List UInt8) :=
  (List.range (bytes.length / length)).map fun i => (bytes.drop (i * length)).take length

variable {blocks : List (List UInt8)}

theorem length_flatten_of_length {length : Nat}
    (sizes : ∀ block ∈ blocks, block.length = length) : blocks.flatten.length = blocks.length * length := by
  induction blocks with
  | nil => simp
  | cons block blocks ih =>
    have first := sizes block (.head _)
    have rest := ih fun other member => sizes other (mem_cons_of_mem block member)
    simp only [flatten_cons, length_append, length_cons, first, rest]
    ring

/-- The block with an index starts after the blocks before it. -/
theorem drop_flatten_of_length {length : Nat} (sizes : ∀ block ∈ blocks, block.length = length) (i : Nat) :
    blocks.flatten.drop (i * length) = (blocks.drop i).flatten := by
  induction blocks generalizing i with
  | nil => simp
  | cons block blocks ih =>
    have first := sizes block (.head _)
    cases i with
    | zero => simp
    | succ i =>
      have rest := ih (fun other member => sizes other (mem_cons_of_mem block member)) i
      have split : (i + 1) * length = block.length + i * length := by
        rw [first]
        ring
      rw [flatten_cons, split, ← drop_drop, drop_left, rest, drop_succ_cons]

/-- **Blocks of one length are cut where they were joined.** -/
theorem chunksExact_flatten {length : Nat} (positive : 0 < length)
    (sizes : ∀ block ∈ blocks, block.length = length) : chunksExact length blocks.flatten = blocks := by
  have count : blocks.flatten.length / length = blocks.length := by
    rw [length_flatten_of_length sizes, Nat.mul_div_cancel _ positive]
  apply ext_getElem
  · simp only [chunksExact, length_map, length_range, count]
  · intro i _ inside
    have head : blocks.drop i = blocks[i] :: blocks.drop (i + 1) := drop_eq_getElem_cons inside
    have size : blocks[i].length = length := sizes _ (getElem_mem inside)
    simp only [chunksExact, getElem_map, getElem_range]
    rw [drop_flatten_of_length sizes, head, flatten_cons, take_left' size]

end Bray.Lib
