/-
  File:      Bray/Lib/Utf8.lean
  Subject:   SCANNING A TEXT BY BYTES. Nothing of this repository is named here.

  A scanner reads the UTF-8 bytes of a text at offsets, and now and then the character at an offset. An ASCII
  byte is a character of its own, so that an offset before or behind one is on a boundary
  (`ascii_onBoundary`), wherever the scanner came from.

  `scanWhile` is the loop `while let Some(byte) = bytes.get(index)`. Each turn goes on at a later offset, so
  that the bytes that are left bound the turns; `scanWhile_rule` is its invariant rule.
-/
import Bray.Lib.Text

namespace Bray.Lib

open List

def utf8Bytes (text : List Char) : List UInt8 := text.flatMap String.utf8EncodeChar

@[simp] theorem utf8Bytes_nil : utf8Bytes [] = [] := rfl

@[simp] theorem utf8Bytes_cons (character : Char) (text : List Char) :
  utf8Bytes (character :: text) = String.utf8EncodeChar character ++ utf8Bytes text := rfl

@[simp] theorem length_utf8Bytes (text : List Char) : (utf8Bytes text).length = utf8Len text := by
  induction text with
  | nil => rfl
  | cons character text ih => simp [ih]

/-- The characters from a byte offset on; none where the offset is not on a boundary. -/
def suffixFrom : List Char → Nat → Option (List Char)
  | text, 0 => some text
  | [], _ + 1 => none
  | character :: text, offset + 1 =>
    if character.utf8Size ≤ offset + 1 then suffixFrom text (offset + 1 - character.utf8Size) else none

@[simp] theorem suffixFrom_zero (text : List Char) : suffixFrom text 0 = some text := by cases text <;> rfl

variable {text rest : List Char} {offset : Nat}

theorem suffixFrom_eq_some :
    suffixFrom text offset = some rest ↔ ∃ front, text = front ++ rest ∧ offset = utf8Len front := by
  induction text generalizing offset with
  | nil =>
    cases offset with
    | zero => simp [suffixFrom, eq_comm]
    | succ offset =>
      refine ⟨nofun, ?_⟩
      rintro ⟨front, split, at_⟩
      obtain ⟨rfl, rfl⟩ := append_eq_nil_iff.mp split.symm
      cases at_
  | cons character text ih =>
    cases offset with
    | zero =>
      constructor
      · rintro ⟨⟩
        exact ⟨[], rfl, rfl⟩
      · rintro ⟨front, split, at_⟩
        cases front with
        | nil => rw [split, suffixFrom_zero, nil_append]
        | cons first front =>
          have := first.utf8Size_pos
          rw [utf8Len_cons] at at_
          omega
    | succ offset =>
      rw [suffixFrom]
      constructor
      · intro found
        split at found
        · obtain ⟨front, split, at_⟩ := ih.mp found
          exact ⟨character :: front, by rw [split]; rfl, by rw [utf8Len_cons]; omega⟩
        · cases found
      · rintro ⟨front, split, at_⟩
        cases front with
        | nil => cases at_
        | cons first front =>
          obtain ⟨rfl, rfl⟩ := List.cons.inj split
          rw [utf8Len_cons] at at_
          rw [if_pos (by omega)]
          exact ih.mpr ⟨front, rfl, by omega⟩

theorem onBoundary_iff : OnBoundary text offset ↔ ∃ rest, suffixFrom text offset = some rest := by
  constructor
  · rintro ⟨front, rest, split, at_⟩
    exact ⟨rest, suffixFrom_eq_some.mpr ⟨front, split, at_⟩⟩
  · rintro ⟨rest, found⟩
    obtain ⟨front, split, at_⟩ := suffixFrom_eq_some.mp found
    exact ⟨front, rest, split, at_⟩

theorem OnBoundary.le (boundary : OnBoundary text offset) : offset ≤ utf8Len text := by
  obtain ⟨front, rest, rfl, rfl⟩ := boundary
  simp

theorem onBoundary_zero (text : List Char) : OnBoundary text 0 := ⟨[], text, rfl, rfl⟩

theorem onBoundary_len (text : List Char) : OnBoundary text (utf8Len text) :=
  ⟨text, [], (append_nil _).symm, rfl⟩

theorem onBoundary_behind {character : Char} (found : suffixFrom text offset = some (character :: rest)) :
    suffixFrom text (offset + character.utf8Size) = some rest := by
  obtain ⟨front, split, at_⟩ := suffixFrom_eq_some.mp found
  exact suffixFrom_eq_some.mpr ⟨front ++ [character], by simp [split], by simp [at_]⟩

theorem suffixFrom_length (found : suffixFrom text offset = some rest) : offset + utf8Len rest = utf8Len text := by
  obtain ⟨front, rfl, rfl⟩ := suffixFrom_eq_some.mp found
  simp

/-- The bytes from a boundary on are those of the characters from there on. -/
theorem utf8Bytes_suffix (found : suffixFrom text offset = some rest)
    (index : Nat) : (utf8Bytes text)[offset + index]? = (utf8Bytes rest)[index]? := by
  obtain ⟨front, rfl, rfl⟩ := suffixFrom_eq_some.mp found
  have : utf8Bytes (front ++ rest) = utf8Bytes front ++ utf8Bytes rest := flatMap_append
  rw [this, ← length_utf8Bytes, getElem?_append_right (Nat.le_add_right _ _), Nat.add_sub_cancel_left]

/-! ## 1. ASCII bytes -/

theorem toNat_ofNat_small {n : Nat} (small : n < 256) : (UInt8.ofNat n).toNat = n := by
  exact Nat.mod_eq_of_lt small

/-- The encoding of a character: a byte of its own when it is ASCII, else bytes that are not. -/
theorem utf8EncodeChar_cases (character : Char) :
    (character.toNat < 128 ∧ String.utf8EncodeChar character = [UInt8.ofNat character.toNat]) ∨
      (128 ≤ character.toNat ∧ ∀ byte ∈ String.utf8EncodeChar character, 128 ≤ byte.toNat) := by
  have value : character.val.toNat = character.toNat := rfl
  unfold String.utf8EncodeChar
  simp only [value]
  by_cases one : character.toNat ≤ 0x7f
  · rw [if_pos one]
    exact .inl ⟨by omega, rfl⟩
  · rw [if_neg one]
    refine .inr ⟨by omega, ?_⟩
    split
    · intro byte mem
      simp only [mem_cons, not_mem_nil, or_false] at mem
      rcases mem with rfl | rfl
      · rw [toNat_ofNat_small (by omega)]; omega
      · rw [toNat_ofNat_small (by omega)]; omega
    · split
      · intro byte mem
        simp only [mem_cons, not_mem_nil, or_false] at mem
        rcases mem with rfl | rfl | rfl
        · rw [toNat_ofNat_small (by omega)]; omega
        · rw [toNat_ofNat_small (by omega)]; omega
        · rw [toNat_ofNat_small (by omega)]; omega
      · intro byte mem
        simp only [mem_cons, not_mem_nil, or_false] at mem
        rcases mem with rfl | rfl | rfl | rfl
        · rw [toNat_ofNat_small (by omega)]; omega
        · rw [toNat_ofNat_small (by omega)]; omega
        · rw [toNat_ofNat_small (by omega)]; omega
        · rw [toNat_ofNat_small (by omega)]; omega

/-- **An ASCII byte is a character.** -/
theorem ascii_suffix {byte : UInt8} (found : (utf8Bytes text)[offset]? = some byte) (ascii : byte.toNat < 128) :
    ∃ character rest, suffixFrom text offset = some (character :: rest) ∧ character.toNat = byte.toNat ∧
      character.utf8Size = 1 := by
  induction text generalizing offset with
  | nil => cases found
  | cons character text ih =>
    rw [utf8Bytes_cons] at found
    have size := String.length_utf8EncodeChar character
    by_cases inside : offset < character.utf8Size
    · rw [getElem?_append_left (by omega)] at found
      rcases utf8EncodeChar_cases character with ⟨small, encoded⟩ | ⟨_, high⟩
      · rw [encoded] at found size
        have one : character.utf8Size = 1 := size.symm
        obtain rfl : offset = 0 := by omega
        cases found
        refine ⟨character, text, rfl, ?_, one⟩
        exact (toNat_ofNat_small (by omega)).symm
      · have := high byte (mem_of_getElem? found)
        omega
    · rw [getElem?_append_right (by omega), size] at found
      obtain ⟨here, rest, suffix, value, one⟩ := ih found
      refine ⟨here, rest, ?_, value, one⟩
      obtain ⟨front, split, at_⟩ := suffixFrom_eq_some.mp suffix
      exact suffixFrom_eq_some.mpr ⟨character :: front, by rw [split]; rfl, by rw [utf8Len_cons]; omega⟩

/-- **Before and behind an ASCII byte is a boundary.** -/
theorem ascii_onBoundary {byte : UInt8} (found : (utf8Bytes text)[offset]? = some byte) (ascii : byte.toNat < 128) :
    OnBoundary text offset ∧ OnBoundary text (offset + 1) := by
  obtain ⟨character, rest, suffix, _, one⟩ := ascii_suffix found ascii
  refine ⟨onBoundary_iff.mpr ⟨_, suffix⟩, onBoundary_iff.mpr ⟨rest, ?_⟩⟩
  have := onBoundary_behind suffix
  rwa [one] at this

/-- At a boundary with no byte the text ends. -/
theorem suffixFrom_end (found : suffixFrom text offset = some rest)
    (no : (utf8Bytes text)[offset]? = none) : rest = [] ∧ offset = utf8Len text := by
  have length := suffixFrom_length found
  have past : utf8Len text ≤ offset := by
    rw [← length_utf8Bytes]
    exact getElem?_eq_none_iff.mp no
  cases rest with
  | nil => exact ⟨rfl, by simpa using length⟩
  | cons character rest =>
    have := character.utf8Size_pos
    rw [utf8Len_cons] at length
    omega

/-! ## 2. Loops over bytes -/

/-- How a turn of a loop ends: it goes on at a later offset, or it leaves the loop. -/
inductive Turn (σ : Type) where
  | next (index : Nat) (state : σ)
  | stop (index : Nat) (state : σ)

/-- **The loop over the bytes from an offset on.** A turn that yields nothing panics. -/
def scanWhile {σ : Type} (bytes : List UInt8) (body : Nat → UInt8 → σ → Option (Turn σ)) :
  Nat → Nat → σ → Option (Nat × σ)
  | 0, index, state => some (index, state)
  | fuel + 1, index, state =>
    match bytes[index]? with
    | none => some (index, state)
    | some byte =>
      match body index byte state with
      | none => none
      | some (.stop index' state') => some (index', state')
      | some (.next index' state') => scanWhile bytes body fuel index' state'

/-- The loop, with turns for every byte that is left. -/
def scanFrom {σ : Type} (bytes : List UInt8) (body : Nat → UInt8 → σ → Option (Turn σ)) (index : Nat) (state : σ) :
  Option (Nat × σ) :=
  scanWhile bytes body (bytes.length - index) index state

/-- **The invariant rule.** A turn goes on at a later offset, or leaves the loop; at the end of the bytes the
loop ends. -/
theorem scanFrom_rule {σ : Type} {bytes : List UInt8} {body : Nat → UInt8 → σ → Option (Turn σ)}
    {P Q : Nat → σ → Prop} {index : Nat} {state : σ} (start : P index state)
    (turn : ∀ index byte state, bytes[index]? = some byte → P index state →
      (∃ index' state', body index byte state = some (.next index' state') ∧ index < index' ∧ P index' state') ∨
        ∃ index' state', body index byte state = some (.stop index' state') ∧ Q index' state')
    (finish : ∀ index state, bytes[index]? = none → P index state → Q index state) :
    ∃ index' state', scanFrom bytes body index state = some (index', state') ∧ Q index' state' := by
  unfold scanFrom
  generalize left : bytes.length - index = fuel
  replace left : bytes.length - index ≤ fuel := Nat.le_of_eq left
  induction fuel generalizing index state with
  | zero =>
    have past : bytes[index]? = none := getElem?_eq_none_iff.mpr (by omega)
    exact ⟨index, state, rfl, finish index state past start⟩
  | succ fuel ih =>
    rw [scanWhile]
    cases byte : bytes[index]? with
    | none => exact ⟨index, state, rfl, finish index state byte start⟩
    | some b =>
      rcases turn index b state byte start with ⟨index', state', eq, later, kept⟩ | ⟨index', state', eq, done⟩
      · simp only [eq]
        exact ih kept (by omega)
      · simp only [eq]
        exact ⟨index', state', rfl, done⟩

end Bray.Lib
