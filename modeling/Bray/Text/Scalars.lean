/-
  File:      Bray/Text/Scalars.lean
  Subject:   THE SCALARS OF A STRING (std/runtime/text.bray): its bytes are validated, counted and sliced as UTF-8.

  A run that reads outside the bytes or fails an assertion stops (`none`). `Codes bytes v` is the table of the
  well-formed sequences with the value each stands for. The code classifies by that table (`scalarWidth_of_codes`,
  `scalarWidth_total`), and it is the encoding of the characters (`codes_utf8EncodeChar`, `exists_char`). The loops
  then go from one character to the next.
-/
import Bray.Lib.Loop
import Bray.Lib.Utf8

namespace Bray.Text

open Bray.Lib List
open Option (bind_eq_bind bind_some map_some)

/-! ## 1. The functions -/

def byte (data : List UInt8) (index : Nat) : Option Nat := data[index]?.map UInt8.toNat

def continuationValue (value : Nat) : Prop := 0x80 ≤ value ∧ value ≤ 0xbf

instance (value : Nat) : Decidable (continuationValue value) := by
  unfold continuationValue
  infer_instance

/-- The width of the sequence at an offset, zero where it is not well formed. -/
def scalarWidth (data : List UInt8) (offset : Nat) : Option Nat :=
  if data.length ≤ offset then some 0
  else do
    let first ← byte data offset
    if first ≤ 0x7f then some 1
    else if 0xc2 ≤ first ∧ first ≤ 0xdf then
      if offset + 1 < data.length then do
        let second ← byte data (offset + 1)
        some (if continuationValue second then 2 else 0)
      else some 0
    else if 0xe0 ≤ first ∧ first ≤ 0xef then
      if data.length ≤ offset + 2 then some 0
      else do
        let second ← byte data (offset + 1)
        let third ← byte data (offset + 2)
        if ¬ continuationValue second ∨ ¬ continuationValue third then some 0
        else if first = 0xe0 ∧ second < 0xa0 ∨ first = 0xed ∧ 0x9f < second then some 0
        else some 3
    else if 0xf0 ≤ first ∧ first ≤ 0xf4 then
      if data.length ≤ offset + 3 then some 0
      else do
        let second ← byte data (offset + 1)
        let third ← byte data (offset + 2)
        let fourth ← byte data (offset + 3)
        if ¬ continuationValue second ∨ ¬ continuationValue third ∨ ¬ continuationValue fourth then some 0
        else if first = 0xf0 ∧ second < 0x90 ∨ first = 0xf4 ∧ 0x8f < second then some 0
        else some 4
    else some 0

def decodeScalar (data : List UInt8) (offset width : Nat) : Option Nat := do
  let first ← byte data offset
  match width with
  | 1 => some first
  | 2 => do
    let second ← byte data (offset + 1)
    some ((first &&& 0x1f) <<< 6 ||| second &&& 0x3f)
  | 3 => do
    let second ← byte data (offset + 1)
    let third ← byte data (offset + 2)
    some ((first &&& 0x0f) <<< 12 ||| (second &&& 0x3f) <<< 6 ||| third &&& 0x3f)
  | 4 => do
    let second ← byte data (offset + 1)
    let third ← byte data (offset + 2)
    let fourth ← byte data (offset + 3)
    some ((first &&& 0x07) <<< 18 ||| (second &&& 0x3f) <<< 12 ||| (third &&& 0x3f) <<< 6 ||| fourth &&& 0x3f)
  | _ => none

/-- The loop of `valid_utf8`. -/
def validFrom (data : List UInt8) (offset : Nat) : Option Bool :=
  if offset < data.length then
    match scalarWidth data offset with
    | some (width + 1) => validFrom data (offset + (width + 1))
    | some 0 => some false
    | none => none
  else some true
termination_by data.length - offset

def validUtf8 (data : List UInt8) : Option Bool := validFrom data 0

/-- The loop of `scalar_count`; a width of zero fails its assertion. -/
def countFrom (data : List UInt8) (offset count : Nat) : Option Nat :=
  if offset < data.length then
    match scalarWidth data offset with
    | some (width + 1) => countFrom data (offset + (width + 1)) (count + 1)
    | _ => none
  else some count
termination_by data.length - offset

def scalarCount (data : List UInt8) : Option Nat := countFrom data 0 0

/-- The loop of `scalar_at`. -/
def atFrom (data : List UInt8) (index offset scalarIndex : Nat) : Option (Option Nat) :=
  if offset < data.length then
    match scalarWidth data offset with
    | some (width + 1) =>
      if scalarIndex = index then some <$> decodeScalar data offset (width + 1)
      else atFrom data index (offset + (width + 1)) (scalarIndex + 1)
    | _ => none
  else some none
termination_by data.length - offset

def scalarAt (data : List UInt8) (index : Nat) : Option (Option Nat) := atFrom data index 0 0

/-- The loop of `scalar_offset`. -/
def offsetFrom (data : List UInt8) (index offset scalarIndex : Nat) : Option (Option Nat) :=
  if offset < data.length ∧ scalarIndex < index then
    match scalarWidth data offset with
    | some (width + 1) => offsetFrom data index (offset + (width + 1)) (scalarIndex + 1)
    | _ => none
  else some (if scalarIndex = index then some offset else none)
termination_by data.length - offset

def scalarOffset (data : List UInt8) (index : Nat) : Option (Option Nat) := offsetFrom data index 0 0

/-- `scalar_slice`: the bytes that are copied. -/
def scalarSlice (data : List UInt8) (start finish : Nat) : Option (List UInt8) := do
  guard (start ≤ finish)
  match ← scalarOffset data start, ← scalarOffset data finish with
  | some startByte, some endByte => some ((data.drop startByte).take (endByte - startByte))
  | _, _ => none

/-! ## 2. The well-formed sequences -/

/-- A continuation byte. -/
def Tail (b : UInt8) : Prop := continuationValue b.toNat

/-- **The well-formed sequences of bytes**, and the value each encodes. -/
inductive Codes : List UInt8 → Nat → Prop where
  | one {a : UInt8} {v : Nat} (lead : a.toNat ≤ 0x7f) (value : v = a.toNat) : Codes [a] v
  | two {a b : UInt8} {v : Nat} (lead : 0xc2 ≤ a.toNat ∧ a.toNat ≤ 0xdf) (hb : Tail b)
    (value : v = (a.toNat - 0xc0) * 64 + (b.toNat - 0x80)) : Codes [a, b] v
  | three {a b c : UInt8} {v : Nat} (lead : 0xe0 ≤ a.toNat ∧ a.toNat ≤ 0xef) (hb : Tail b) (hc : Tail c)
    (scalar : ¬ (a.toNat = 0xe0 ∧ b.toNat < 0xa0 ∨ a.toNat = 0xed ∧ 0x9f < b.toNat))
    (value : v = (a.toNat - 0xe0) * 4096 + (b.toNat - 0x80) * 64 + (c.toNat - 0x80)) : Codes [a, b, c] v
  | four {a b c d : UInt8} {v : Nat} (lead : 0xf0 ≤ a.toNat ∧ a.toNat ≤ 0xf4) (hb : Tail b) (hc : Tail c) (hd : Tail d)
    (scalar : ¬ (a.toNat = 0xf0 ∧ b.toNat < 0x90 ∨ a.toNat = 0xf4 ∧ 0x8f < b.toNat))
    (value : v = (a.toNat - 0xf0) * 262144 + (b.toNat - 0x80) * 4096 + (c.toNat - 0x80) * 64 + (d.toNat - 0x80)) :
    Codes [a, b, c, d] v

/-- The bytes of a character of a given number. -/
def encoding (v : Nat) : List UInt8 :=
  if v ≤ 0x7f then [.ofNat v]
  else if v ≤ 0x7ff then [.ofNat (v / 64 % 0x20 + 0xc0), .ofNat (v % 0x40 + 0x80)]
  else if v ≤ 0xffff then
    [.ofNat (v / 4096 % 0x10 + 0xe0), .ofNat (v / 64 % 0x40 + 0x80), .ofNat (v % 0x40 + 0x80)]
  else
    [.ofNat (v / 262144 % 0x08 + 0xf0), .ofNat (v / 4096 % 0x40 + 0x80), .ofNat (v / 64 % 0x40 + 0x80),
      .ofNat (v % 0x40 + 0x80)]

theorem toNat_ofNat_byte {n : Nat} (h : n < 256) : (UInt8.ofNat n).toNat = n := by
  rw [UInt8.toNat_ofNat']
  omega

theorem ofNat_eq {n : Nat} {b : UInt8} (h : n = b.toNat) : UInt8.ofNat n = b := by
  rw [h, UInt8.ofNat_toNat]

theorem toNat_ofNat_tail (n : Nat) : (UInt8.ofNat (n % 0x40 + 0x80)).toNat = n % 0x40 + 0x80 :=
  toNat_ofNat_byte (by omega)

theorem tail_ofNat (n : Nat) : Tail (.ofNat (n % 0x40 + 0x80)) := by
  unfold Tail continuationValue
  rw [toNat_ofNat_tail]
  omega

/-- **The encoding of a scalar value is well formed.** -/
theorem codes_encoding {v : Nat} (valid : v.isValidChar) : Codes (encoding v) v := by
  unfold encoding
  split
  · have lead := @toNat_ofNat_byte v (by omega)
    exact .one (by omega) lead.symm
  split
  · have lead := @toNat_ofNat_byte (v / 64 % 0x20 + 0xc0) (by omega)
    exact .two (by rw [lead]; omega) (tail_ofNat _) (by rw [lead, toNat_ofNat_tail]; omega)
  split
  · have lead := @toNat_ofNat_byte (v / 4096 % 0x10 + 0xe0) (by omega)
    refine .three (by rw [lead]; omega) (tail_ofNat _) (tail_ofNat _) ?_ ?_
    · rw [lead, toNat_ofNat_tail]
      omega
    · rw [lead, toNat_ofNat_tail, toNat_ofNat_tail]
      omega
  · have lead := @toNat_ofNat_byte (v / 262144 % 0x08 + 0xf0) (by omega)
    refine .four (by rw [lead]; omega) (tail_ofNat _) (tail_ofNat _) (tail_ofNat _) ?_ ?_
    · rw [lead, toNat_ofNat_tail]
      omega
    · rw [lead, toNat_ofNat_tail, toNat_ofNat_tail, toNat_ofNat_tail]
      omega

/-- **A well-formed sequence is the encoding of a scalar value.** -/
theorem Codes.encoding_eq {bytes : List UInt8} {v : Nat} (h : Codes bytes v) :
    v.isValidChar ∧ encoding v = bytes := by
  unfold encoding Nat.isValidChar
  cases h with
  | one lead value => exact ⟨by omega, by rw [if_pos (by omega), ofNat_eq value]⟩
  | two lead hb value =>
    unfold Tail continuationValue at hb
    refine ⟨by omega, ?_⟩
    rw [if_neg (by omega), if_pos (by omega)]
    simp only [List.cons.injEq, and_true]
    exact ⟨ofNat_eq (by omega), ofNat_eq (by omega)⟩
  | three lead hb hc scalar value =>
    unfold Tail continuationValue at hb hc
    refine ⟨by omega, ?_⟩
    rw [if_neg (by omega), if_neg (by omega), if_pos (by omega)]
    simp only [List.cons.injEq, and_true]
    exact ⟨ofNat_eq (by omega), ofNat_eq (by omega), ofNat_eq (by omega)⟩
  | four lead hb hc hd scalar value =>
    unfold Tail continuationValue at hb hc hd
    refine ⟨by omega, ?_⟩
    rw [if_neg (by omega), if_neg (by omega), if_neg (by omega)]
    simp only [List.cons.injEq, and_true]
    exact ⟨ofNat_eq (by omega), ofNat_eq (by omega), ofNat_eq (by omega), ofNat_eq (by omega)⟩

theorem codes_utf8EncodeChar (c : Char) : Codes (String.utf8EncodeChar c) c.toNat := codes_encoding c.valid

theorem exists_char {bytes : List UInt8} {v : Nat} (h : Codes bytes v) :
    ∃ c : Char, c.toNat = v ∧ String.utf8EncodeChar c = bytes := by
  obtain ⟨valid, same⟩ := h.encoding_eq
  exact ⟨Char.ofNatAux v valid, rfl, same⟩

/-! ## 3. What the code reads at an offset -/

theorem byte_drop (data : List UInt8) (offset index : Nat) :
    byte (data.drop offset) index = byte data (offset + index) := by
  rw [byte, byte, getElem?_drop]

/-- The width at an offset is read off the bytes from there on. -/
theorem scalarWidth_drop (data : List UInt8) (offset : Nat) :
    scalarWidth data offset = scalarWidth (data.drop offset) 0 := by
  have beyond (k : Nat) : (data.drop offset).length ≤ k ↔ data.length ≤ offset + k := by
    rw [length_drop]
    omega
  have inside (k : Nat) : k < (data.drop offset).length ↔ offset + k < data.length := by
    rw [length_drop]
    omega
  unfold scalarWidth
  simp only [beyond, inside, byte_drop, Nat.zero_add, Nat.add_zero]

theorem decodeScalar_drop (data : List UInt8) (offset width : Nat) :
    decodeScalar data offset width = decodeScalar (data.drop offset) 0 width := by
  unfold decodeScalar
  simp only [byte_drop, Nat.zero_add, Nat.add_zero]

/-- **A well-formed sequence is seen with its width.** -/
theorem scalarWidth_of_codes {data bytes rest : List UInt8} {offset v : Nat} (h : Codes bytes v)
    (at_ : data.drop offset = bytes ++ rest) : scalarWidth data offset = some bytes.length := by
  rw [scalarWidth_drop, at_]
  cases h with
  | one lead value => simp [scalarWidth, byte, lead]
  | @two a b v lead hb value =>
    unfold Tail at hb
    simp [scalarWidth, byte, show ¬ a.toNat ≤ 127 by omega, lead, hb]
  | @three a b c v lead hb hc scalar value =>
    rw [scalarWidth, if_neg (by simp)]
    simp only [byte, cons_append, getElem?_cons_zero, getElem?_cons_succ, map_some,
      bind_eq_bind, bind_some, Nat.zero_add, length_cons]
    rw [if_neg (by omega), if_neg (by omega), if_pos lead, if_neg (by omega), if_neg (by tauto), if_neg scalar]
    rfl
  | @four a b c d v lead hb hc hd scalar value =>
    rw [scalarWidth, if_neg (by simp)]
    simp only [byte, cons_append, getElem?_cons_zero, getElem?_cons_succ, map_some,
      bind_eq_bind, bind_some, Nat.zero_add, length_cons]
    rw [if_neg (by omega), if_neg (by omega), if_neg (by omega), if_pos lead, if_neg (by omega), if_neg (by tauto),
      if_neg scalar]
    rfl

/-- **No byte outside is read, and a width that is not zero is that of a well-formed sequence.** -/
theorem scalarWidth_total (data : List UInt8) (offset : Nat) : ∃ width, scalarWidth data offset = some width ∧
    (width ≠ 0 → ∃ bytes rest v, Codes bytes v ∧ bytes.length = width ∧ data.drop offset = bytes ++ rest) := by
  rw [scalarWidth_drop]
  generalize data.drop offset = bytes
  rcases bytes with _ | ⟨a, _ | ⟨b, _ | ⟨c, _ | ⟨d, rest⟩⟩⟩⟩ <;>
    simp only [scalarWidth, byte, length_cons, length_nil, getElem?_cons_zero, getElem?_cons_succ,
      getElem?_nil, map_some, Option.map_none, bind_eq_bind, bind_some, Option.bind_none,
      Nat.zero_add]
  all_goals (repeat' split)
  all_goals first
    | exact ⟨0, rfl, fun positive => absurd rfl positive⟩
    | exact ⟨1, rfl, fun _ => ⟨[a], _, _, .one ‹_› rfl, rfl, rfl⟩⟩
    | exact ⟨2, rfl, fun _ => ⟨[a, b], _, _, .two ‹_› ‹_› rfl, rfl, rfl⟩⟩
    | exact ⟨3, rfl, fun _ =>
      ⟨[a, b, c], _, _, .three ‹_› (by unfold Tail; tauto) (by unfold Tail; tauto) ‹_› rfl, rfl, rfl⟩⟩
    | exact ⟨4, rfl, fun _ => ⟨[a, b, c, d], _, _,
      .four ‹_› (by unfold Tail; tauto) (by unfold Tail; tauto) (by unfold Tail; tauto) ‹_› rfl, rfl, rfl⟩⟩
    | (exfalso; omega)

/-- Bits below those of an aligned number are added to it. -/
theorem or_eq_add {n low k : Nat} (aligned : n % 2 ^ k = 0) (below : low < 2 ^ k) : n ||| low = n + low := by
  obtain ⟨m, rfl⟩ := Nat.dvd_of_mod_eq_zero aligned
  exact (Nat.two_pow_add_eq_or_of_lt below m).symm

/-- **A well-formed sequence is decoded to its value.** -/
theorem decodeScalar_of_codes {data bytes rest : List UInt8} {offset v : Nat} (h : Codes bytes v)
    (at_ : data.drop offset = bytes ++ rest) : decodeScalar data offset bytes.length = some v := by
  have low3 (n : Nat) : n &&& 0x07 = n % 8 := Nat.and_two_pow_sub_one_eq_mod n 3
  have low4 (n : Nat) : n &&& 0x0f = n % 16 := Nat.and_two_pow_sub_one_eq_mod n 4
  have low5 (n : Nat) : n &&& 0x1f = n % 32 := Nat.and_two_pow_sub_one_eq_mod n 5
  have low6 (n : Nat) : n &&& 0x3f = n % 64 := Nat.and_two_pow_sub_one_eq_mod n 6
  rw [decodeScalar_drop, at_]
  cases h <;>
    simp only [decodeScalar, byte, cons_append, getElem?_cons_zero, getElem?_cons_succ, map_some,
      bind_eq_bind, bind_some, Nat.zero_add, length_cons, length_nil, low3, low4, low5, low6,
      Nat.shiftLeft_eq]
  case one lead value => rw [value]
  case two lead hb value =>
    unfold Tail continuationValue at hb
    rw [@or_eq_add _ _ 6 (by omega) (by omega)]
    congr 1
    omega
  case three lead hb hc scalar value =>
    unfold Tail continuationValue at hb hc
    rw [@or_eq_add (_ * 2 ^ 12) _ 12 (by omega) (by omega), @or_eq_add _ _ 6 (by omega) (by omega)]
    congr 1
    omega
  case four lead hb hc hd scalar value =>
    unfold Tail continuationValue at hb hc hd
    rw [@or_eq_add (_ * 2 ^ 18) _ 18 (by omega) (by omega), @or_eq_add (_ + _) (_ * 2 ^ 6) 12 (by omega) (by omega),
      @or_eq_add _ _ 6 (by omega) (by omega)]
    congr 1
    omega

/-! ## 4. The loops -/

/-- The bytes from an offset on are the encoding of a text. -/
def At (data : List UInt8) (offset : Nat) (text : List Char) : Prop :=
  offset ≤ data.length ∧ data.drop offset = utf8Bytes text

section At

variable {data : List UInt8} {offset : Nat} {c : Char} {text : List Char}

theorem At.nil (h : At data offset []) : ¬ offset < data.length := by
  have := congrArg List.length h.2
  rw [length_drop, utf8Bytes_nil, length_nil] at this
  omega

section

variable (h : At data offset (c :: text))
include h

theorem At.drop : data.drop offset = String.utf8EncodeChar c ++ utf8Bytes text := by
  rw [h.2, utf8Bytes_cons]

theorem At.room : offset + c.utf8Size ≤ data.length := by
  have := congrArg List.length h.drop
  rw [length_drop, length_append, String.length_utf8EncodeChar] at this
  have := c.utf8Size_pos
  omega

theorem At.width :
    ∃ width, c.utf8Size = width + 1 ∧ scalarWidth data offset = some (width + 1) ∧ offset < data.length ∧
      At data (offset + (width + 1)) text := by
  have seen := scalarWidth_of_codes (codes_utf8EncodeChar c) h.drop
  have room := h.room
  have positive := c.utf8Size_pos
  rw [String.length_utf8EncodeChar] at seen
  refine ⟨c.utf8Size - 1, by omega, ?_, by omega, ?_, ?_⟩
  · rw [seen]
    congr 1
    omega
  · omega
  · rw [show c.utf8Size - 1 + 1 = c.utf8Size by omega, ← drop_drop, h.drop, ← String.length_utf8EncodeChar,
    drop_left]

theorem At.decode : decodeScalar data offset c.utf8Size = some c.toNat := by
  rw [← String.length_utf8EncodeChar]
  exact decodeScalar_of_codes (codes_utf8EncodeChar c) h.drop

end

/-- **Validation ends**, with the answer whether the bytes from the offset on encode a text. -/
theorem validFrom_total (data : List UInt8) (offset : Nat) (le : offset ≤ data.length) :
    ∃ valid, validFrom data offset = some valid ∧ (valid = true ↔ ∃ text, At data offset text) := by
  induction left : data.length - offset using Nat.strongRecOn generalizing offset with
  | ind left ih =>
    rw [validFrom]
    split
    · rename_i inside
      obtain ⟨width, seen, codes⟩ := scalarWidth_total data offset
      cases width with
      | zero =>
        rw [seen]
        refine ⟨false, rfl, nofun, ?_⟩
        rintro ⟨text, h⟩
        cases text with
        | nil => exact absurd inside h.nil
        | cons c text =>
          obtain ⟨width, -, wide, -⟩ := h.width
          rw [seen] at wide
          cases wide
      | succ width =>
        obtain ⟨bytes, rest, v, h, length, split⟩ := codes (by omega)
        obtain ⟨c, -, rfl⟩ := exists_char h
        have room := congrArg List.length split
        rw [length_drop, length_append, length] at room
        obtain ⟨valid, done, iff⟩ := ih (data.length - (offset + (width + 1))) (by omega) _ (by omega) rfl
        rw [seen]
        refine ⟨valid, done, iff.trans ⟨?_, ?_⟩⟩
        · rintro ⟨text, -, after⟩
          refine ⟨c :: text, le, ?_⟩
          rw [split, utf8Bytes_cons, ← after, ← drop_drop, split, ← length, drop_left]
        · rintro ⟨text, h'⟩
          cases text with
          | nil => exact absurd inside h'.nil
          | cons c' text =>
            obtain ⟨width', -, wide, -, after⟩ := h'.width
            rw [seen] at wide
            cases wide
            exact ⟨text, after⟩
    · exact ⟨true, rfl, fun _ => ⟨[], le, drop_of_length_le (by omega)⟩, fun _ => rfl⟩

theorem countFrom_eq (h : At data offset text) (count : Nat) : countFrom data offset count = some (count + text.length) := by
  induction text generalizing offset count with
  | nil => rw [countFrom, if_neg h.nil]; rfl
  | cons c text ih =>
    obtain ⟨width, -, seen, inside, after⟩ := h.width
    rw [countFrom, if_pos inside, seen, length_cons]
    simp only
    rw [ih after, Nat.add_right_comm, Nat.add_assoc]

theorem atFrom_eq (h : At data offset text) {index scalarIndex : Nat} (le : scalarIndex ≤ index) :
    atFrom data index offset scalarIndex = some (text[index - scalarIndex]?.map Char.toNat) := by
  induction text generalizing offset scalarIndex with
  | nil => rw [atFrom, if_neg h.nil]; rfl
  | cons c text ih =>
    obtain ⟨width, size, seen, inside, after⟩ := h.width
    rw [atFrom, if_pos inside, seen]
    simp only
    split
    · rename_i here
      rw [← size, h.decode, here, Nat.sub_self]
      rfl
    · rw [ih after (by omega), show index - scalarIndex = index - (scalarIndex + 1) + 1 by omega,
      getElem?_cons_succ]

theorem offsetFrom_eq (h : At data offset text) {index scalarIndex : Nat} (le : scalarIndex ≤ index) :
    offsetFrom data index offset scalarIndex = some
      (if index - scalarIndex ≤ text.length then some (offset + utf8Len (text.take (index - scalarIndex))) else none) := by
  induction text generalizing offset scalarIndex with
  | nil =>
    rw [offsetFrom, if_neg fun both => h.nil both.1]
    simp only [length_nil, take_nil, utf8Len_nil, Nat.add_zero]
    congr 2
    exact propext ⟨fun _ => by omega, fun _ => by omega⟩
  | cons c text ih =>
    obtain ⟨width, size, seen, inside, after⟩ := h.width
    rw [offsetFrom]
    by_cases more : scalarIndex < index
    · rw [if_pos ⟨inside, more⟩, seen]
      simp only
      rw [ih after (by omega), show index - scalarIndex = index - (scalarIndex + 1) + 1 by omega, take_succ_cons,
        utf8Len_cons, size, length_cons, Nat.add_assoc offset]
      congr 2
      exact propext ⟨fun _ => by omega, fun _ => by omega⟩
    · obtain rfl : scalarIndex = index := by omega
      rw [if_neg fun both => more both.2, if_pos rfl, Nat.sub_self, if_pos (Nat.zero_le _)]
      rfl

/-- The bytes between two scalars of a text. -/
theorem sliced_eq {start finish : Nat} (encoded : data = utf8Bytes text) (le : start ≤ finish) :
    (data.drop (utf8Len (text.take start))).take (utf8Len (text.take finish) - utf8Len (text.take start)) =
      utf8Bytes ((text.drop start).take (finish - start)) := by
  have append (front back : List Char) : utf8Bytes (front ++ back) = utf8Bytes front ++ utf8Bytes back :=
    flatMap_append
  have split : text.take finish = text.take start ++ (text.drop start).take (finish - start) := by
    rw [← take_add, Nat.add_sub_cancel' le]
  have behind : data.drop (utf8Len (text.take start)) = utf8Bytes (text.drop start) := by
    rw [encoded]
    conv_lhs => rw [← take_append_drop start text, append]
    rw [← length_utf8Bytes, take_append_drop, drop_left]
  rw [behind, split, utf8Len_append, Nat.add_sub_cancel_left]
  conv_lhs => rw [← take_append_drop (finish - start) (text.drop start), append]
  rw [take_append_drop, ← length_utf8Bytes, take_left]

end At

/-- **Strings are read as UTF-8.** No run leaves the bytes; validation accepts exactly the encodings; and of the
encoding of a text the scalars are counted, found, measured and cut out as those of the text. -/
theorem strings_are_utf8 (data : List UInt8) : (∀ offset, ∃ width, scalarWidth data offset = some width) ∧
    (∃ valid, validUtf8 data = some valid ∧ (valid = true ↔ ∃ text, data = utf8Bytes text)) ∧
    ∀ text, data = utf8Bytes text → scalarCount data = some text.length ∧
      (∀ index, scalarAt data index = some (text[index]?.map Char.toNat)) ∧ (∀ index, scalarOffset data index =
        some (if index ≤ text.length then some (utf8Len (text.take index)) else none)) ∧
      ∀ start finish, start ≤ finish → finish ≤ text.length →
        scalarSlice data start finish = some (utf8Bytes ((text.drop start).take (finish - start))) := by
  refine ⟨fun offset => ?_, ?_, fun text encoded => ?_⟩
  · obtain ⟨width, seen, -⟩ := scalarWidth_total data offset
    exact ⟨width, seen⟩
  · obtain ⟨valid, done, iff⟩ := validFrom_total data 0 (Nat.zero_le _)
    exact ⟨valid, done, iff.trans (exists_congr fun text => and_iff_right (Nat.zero_le _))⟩
  · have start_ : At data 0 text := ⟨Nat.zero_le _, encoded⟩
    have offsets (index : Nat) : scalarOffset data index =
      some (if index ≤ text.length then some (utf8Len (text.take index)) else none) := by
      have := offsetFrom_eq start_ (Nat.zero_le index)
      rwa [Nat.sub_zero, Nat.zero_add] at this
    refine ⟨by rw [scalarCount, countFrom_eq start_, Nat.zero_add], fun index => ?_, offsets, fun start finish le fits => ?_⟩
    · rw [scalarAt, atFrom_eq start_ (Nat.zero_le index), Nat.sub_zero]
    · rw [scalarSlice, offsets, offsets, if_pos (Nat.le_trans le fits), if_pos fits, ← sliced_eq encoded le]
      simp [guard, le]

/-- A copyright sign: the lead byte of a pair, whose second byte is missing in a truncated text. -/
theorem strings_are_utf8_pair :
    (∃ valid, validUtf8 [0xc2] = some valid ∧ (valid = true ↔ ∃ text, [0xc2] = utf8Bytes text)) ∧
      scalarCount [0x61, 0xc2, 0xa9] = some 2 ∧ scalarSlice [0x61, 0xc2, 0xa9] 1 2 = some [0xc2, 0xa9] :=
  ⟨(strings_are_utf8 [0xc2]).2.1, ((strings_are_utf8 [0x61, 0xc2, 0xa9]).2.2 ['a', '©'] (by decide)).1,
    ((strings_are_utf8 [0x61, 0xc2, 0xa9]).2.2 ['a', '©'] (by decide)).2.2.2 1 2 (by decide) (by decide)⟩

end Bray.Text
