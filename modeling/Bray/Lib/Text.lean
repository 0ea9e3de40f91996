/-
  File:      Bray/Lib/Text.lean
  Subject:   TEXT as a list of characters, measured in UTF-8 bytes and in UTF-16 code units. Nothing of
  this repository is named here.

  A byte offset is on a character boundary when it is the byte length of a first part of the text.
-/
import Bray.Lib.Ruler

namespace Bray.Lib

/-- The UTF-16 code units of a character: two outside the basic plane. -/
def utf16Size (character : Char) : Nat := if character.toNat < 0x10000 then 1 else 2

def utf8Len (text : List Char) : Nat := span Char.utf8Size text

/-- The UTF-16 code units of a text. -/
def utf16Len (text : List Char) : Nat := span utf16Size text

@[simp] theorem utf8Len_nil : utf8Len [] = 0 := rfl

@[simp] theorem utf8Len_cons (character : Char) (text : List Char) :
  utf8Len (character :: text) = character.utf8Size + utf8Len text := span_cons _ _ _

@[simp] theorem utf8Len_append (front back : List Char) :
  utf8Len (front ++ back) = utf8Len front + utf8Len back := span_append _ _ _

@[simp] theorem utf16Len_nil : utf16Len [] = 0 := rfl

@[simp] theorem utf16Len_cons (character : Char) (text : List Char) :
  utf16Len (character :: text) = utf16Size character + utf16Len text := span_cons _ _ _

@[simp] theorem utf16Len_append (front back : List Char) :
  utf16Len (front ++ back) = utf16Len front + utf16Len back := span_append _ _ _

theorem utf8Len_pos {text : List Char} (ne : text ≠ []) : 0 < utf8Len text := span_pos Char.utf8Size_pos ne

theorem length_le_utf8Len (text : List Char) : text.length ≤ utf8Len text :=
  length_le_span Char.utf8Size_pos text

theorem utf16Size_pos (character : Char) : 0 < utf16Size character := by
  unfold utf16Size
  split <;> omega

theorem utf16Size_le_two (character : Char) : utf16Size character ≤ 2 := by
  unfold utf16Size
  split <;> omega

/-- A byte offset between two characters of a text, or at its start or its end. -/
def OnBoundary (text : List Char) (offset : Nat) : Prop :=
  ∃ front back, text = front ++ back ∧ offset = utf8Len front

@[simp] theorem onBoundary_nil {offset : Nat} : OnBoundary [] offset ↔ offset = 0 := by
  constructor
  · intro ⟨front, back, split, at_front⟩
    obtain ⟨rfl, rfl⟩ := List.append_eq_nil_iff.mp split.symm
    exact at_front
  · exact fun h => ⟨[], [], rfl, h⟩

/-- A boundary is the start, or a boundary behind the first character. -/
theorem onBoundary_cons {character : Char} {text : List Char} {offset : Nat} :
    OnBoundary (character :: text) offset ↔
      offset = 0 ∨ ∃ rest, offset = character.utf8Size + rest ∧ OnBoundary text rest := by
  constructor
  · intro ⟨front, back, split, at_front⟩
    cases front with
    | nil => exact .inl at_front
    | cons first front =>
      obtain ⟨rfl, rfl⟩ := List.cons.inj split
      exact .inr ⟨utf8Len front, by simpa using at_front, front, back, rfl, rfl⟩
  · intro h
    rcases h with start | ⟨rest, behind, front, back, split, at_front⟩
    · exact ⟨[], character :: text, rfl, start⟩
    · exact ⟨character :: front, back, by rw [split]; rfl, by simp [behind, at_front]⟩

end Bray.Lib
