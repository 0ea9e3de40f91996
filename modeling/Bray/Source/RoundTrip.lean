/-
  File:      Bray/Source/RoundTrip.lean
  Subject:   ROUND TRIPS BETWEEN OFFSETS AND POSITIONS, and which offsets and positions are valid.

  The offsets of places are the character boundaries of the text that are not between the CR and the LF of
  a CRLF (`place_iff_boundary`). Places are ordered alike by offset and by position (`place_lt_iff`), so
  each determines the place and the conversions undo each other.

  The index resolves a position together with its one-based line and column. A text of 2^32 - 1 bytes can
  have a place whose one-based number is 2^32; there the offset has no position (`OneBasedOverflow`).
-/
import Bray.Source.Positions

namespace Bray.Source

open Bray.Lib List

/-! ## 1. Which offsets are those of places -/

/-- An offset between the CR and the LF of a CRLF. -/
def InsideCrlf (text : List Char) (offset : Nat) : Prop :=
  ∃ front back, text = front ++ '\r' :: '\n' :: back ∧ offset = utf8Len front + 1

variable {text : List Char} {offset : Nat}

theorem insideCrlf_cons {character : Char} : InsideCrlf (character :: text) offset ↔
    (character = '\r' ∧ text.head? = some '\n' ∧ offset = 1) ∨
      ∃ rest, offset = character.utf8Size + rest ∧ InsideCrlf text rest := by
  constructor
  · intro ⟨front, back, split, inside⟩
    cases front with
    | nil =>
      obtain ⟨rfl, rfl⟩ := List.cons.inj split
      exact .inl ⟨rfl, rfl, inside⟩
    | cons first front =>
      obtain ⟨rfl, rfl⟩ := List.cons.inj split
      refine .inr ⟨utf8Len front + 1, ?_, front, back, rfl, rfl⟩
      rw [inside, utf8Len_cons, Nat.add_assoc]
  · intro h
    rcases h with ⟨rfl, next, inside⟩ | ⟨rest, behind, front, back, split, inside⟩
    · cases text with
      | nil => cases next
      | cons second others =>
        rw [head?_cons, Option.some.injEq] at next
        exact ⟨[], others, by rw [next]; rfl, inside⟩
    · refine ⟨character :: front, back, by rw [split]; rfl, ?_⟩
      rw [behind, inside, utf8Len_cons, Nat.add_assoc]

theorem not_insideCrlf_nil : ¬ InsideCrlf [] offset := by
  intro ⟨front, back, split, _⟩
  cases front <;> cases split

theorem exists_rest {size : Nat} {P : Nat → Prop} :
    (∃ rest, offset = size + rest ∧ P rest) ↔ size ≤ offset ∧ P (offset - size) := by
  constructor
  · intro ⟨rest, behind, holds⟩
    subst behind
    exact ⟨Nat.le_add_right _ _, by rwa [Nat.add_sub_cancel_left]⟩
  · exact fun h => ⟨offset - size, (Nat.add_sub_cancel' h.1).symm, h.2⟩

def PlacedAt (lines : List TextLine) (offset : Nat) : Prop :=
  ∃ k i line, lines[k]? = some line ∧ i ≤ line.content.length ∧
    offset = span TextLine.byteLen (lines.take k) + utf8Len (line.content.take i)

variable {lines : List TextLine}

/-- A place is in the first line or in a later one. -/
theorem placedAt_cons {line : TextLine} : PlacedAt (line :: lines) offset ↔
    (∃ i ≤ line.content.length, offset = utf8Len (line.content.take i)) ∨
      ∃ rest, offset = line.byteLen + rest ∧ PlacedAt lines rest := by
  constructor
  · intro ⟨k, i, other, at_k, within, here⟩
    cases k with
    | zero =>
      have same : line = other := by simpa using at_k
      subst same
      exact .inl ⟨i, within, by simpa using here⟩
    | succ k =>
      rw [take_succ_cons, span_cons, Nat.add_assoc] at here
      exact .inr ⟨_, here, k, i, other, at_k, within, rfl⟩
  · intro h
    rcases h with ⟨i, within, here⟩ | ⟨rest, behind, k, i, other, at_k, within, here⟩
    · exact ⟨0, i, line, rfl, within, by simpa using here⟩
    · refine ⟨k + 1, i, other, at_k, within, ?_⟩
      rw [take_succ_cons, span_cons, behind, here, Nat.add_assoc]

theorem placedAt_prepend {character : Char} (ne : lines ≠ []) : PlacedAt (prepend [character] lines) offset ↔
      offset = 0 ∨ ∃ rest, offset = character.utf8Size + rest ∧ PlacedAt lines rest := by
  cases lines with
  | nil => exact absurd rfl ne
  | cons line lines =>
    rw [prepend_cons, placedAt_cons]
    have longer : (TextLine.mk ([character] ++ line.content) line.ending).byteLen =
      character.utf8Size + line.byteLen := by
      simp [TextLine.byteLen, Nat.add_assoc]
    constructor
    · intro h
      rcases h with ⟨i, within, here⟩ | ⟨rest, behind, later⟩
      · cases i with
        | zero => exact .inl here
        | succ i =>
          refine .inr ⟨_, by simpa using here, placedAt_cons.mpr (.inl ⟨i, ?_, rfl⟩)⟩
          simpa using within
      · refine .inr ⟨line.byteLen + rest, ?_, placedAt_cons.mpr (.inr ⟨rest, rfl, later⟩)⟩
        rw [behind, longer, Nat.add_assoc]
    · intro h
      rcases h with start | ⟨rest, behind, placed⟩
      · exact .inl ⟨0, Nat.zero_le _, start⟩
      · rcases placedAt_cons.mp placed with ⟨i, within, here⟩ | ⟨rest', behind', later⟩
        · exact .inl ⟨i + 1, by simpa using within, by simp [behind, here]⟩
        · exact .inr ⟨rest', by rw [behind, behind', longer, Nat.add_assoc], later⟩

theorem placedAt_break {ending : List Char} : PlacedAt (⟨[], ending⟩ :: lines) offset ↔
    offset = 0 ∨ ∃ rest, offset = utf8Len ending + rest ∧ PlacedAt lines rest := by
  have empty : (TextLine.mk [] ending).byteLen = utf8Len ending := by simp [TextLine.byteLen]
  rw [placedAt_cons, empty]
  simp

/-- **The offsets of places** are the character boundaries that no CRLF surrounds. -/
theorem placedAt_iff : PlacedAt (textLines text) offset ↔ OnBoundary text offset ∧ ¬ InsideCrlf text offset := by
  induction text using textLines.induct generalizing offset with
  | case1 =>
    rw [textLines, placedAt_break, onBoundary_nil]
    have no_lines {rest : Nat} : ¬ PlacedAt [] rest := by
      intro placed
      obtain ⟨k, i, line, at_k, _⟩ := placed
      cases at_k
    simp [no_lines, not_insideCrlf_nil]
  | case2 rest ih =>
    rw [textLines, placedAt_break]
    simp only [onBoundary_cons, insideCrlf_cons, ih, cr_utf8Size, lf_utf8Size, utf8Len_cons, utf8Len_nil,
      head?_cons, exists_rest]
    -- the two characters of the line break: before them, between them, behind them
    rcases offset with _ | _ | rest
    · simp
    · simp
    · simp
  | case3 character rest lone breaks ih =>
    have size : character.utf8Size = 1 := by
      rcases breaks with rfl | rfl
      · exact cr_utf8Size
      · exact lf_utf8Size
    have outside : ¬ (character = '\r' ∧ rest.head? = some '\n' ∧ offset = 1) :=
      fun h => lone_head lone ⟨h.1, h.2.1⟩
    rw [textLines, if_pos breaks, placedAt_break]
    · simp only [onBoundary_cons, insideCrlf_cons, ih, size, utf8Len_cons, utf8Len_nil, exists_rest, outside,
        false_or]
      cases offset with
      | zero => simp
      | succ rest => simp
    · exact lone
  | case4 character rest lone plain ih =>
    have outside : ¬ (character = '\r' ∧ rest.head? = some '\n' ∧ offset = 1) :=
      fun h => plain (.inl h.1)
    rw [textLines, if_neg plain, placedAt_prepend (textLines_ne_nil rest)]
    · simp only [onBoundary_cons, insideCrlf_cons, ih, exists_rest, outside, false_or]
      have pos := character.utf8Size_pos
      by_cases start : offset = 0
      · subst start
        simp only [true_or, true_and, true_iff, not_and]
        exact fun le => absurd le (Nat.not_le.mpr pos)
      · simp only [start, false_or]
        constructor
        · exact fun h => ⟨⟨h.1, h.2.1⟩, fun inside => h.2.2 inside.2⟩
        · exact fun h => ⟨h.1.1, h.1.2, fun inside => h.2 ⟨h.1.1, inside⟩⟩
    · exact lone

/-- **The valid offsets**: an offset is that of a place when it is on a character boundary and not inside a
CRLF. -/
theorem place_iff_boundary : (∃ k i line, Place text k i line ∧ offset = placeOffset text k i line) ↔
    OnBoundary text offset ∧ ¬ InsideCrlf text offset := by
  rw [← placedAt_iff]
  constructor
  · intro ⟨k, i, line, place, here⟩
    exact ⟨k, i, line, place.at_line, place.within, here⟩
  · intro ⟨k, i, line, at_k, within, here⟩
    exact ⟨k, i, line, ⟨at_k, within⟩, here⟩

/-! ## 2. Places in order -/

section Order

variable {text : List Char} {k i k' i' : Nat} {line line' : TextLine}

section

variable (place : Place text k i line) (other : Place text k' i' line')
include place other

theorem placeOffset_lt_of_line_lt
    (earlier : k < k') : placeOffset text k i line < placeOffset text k' i' line' := by
  obtain ⟨bound, -⟩ := List.getElem_of_getElem? other.at_line
  calc placeOffset text k i line < lineStart text (k + 1) := placeOffset_lt place (by omega)
    _ ≤ lineStart text k' := lineStart_mono earlier
    _ ≤ placeOffset text k' i' line' := Nat.le_add_right _ _

/-- **Offsets order places as positions do.** -/
theorem place_lt_iff : placePosition k i line < placePosition k' i' line' ↔
      placeOffset text k i line < placeOffset text k' i' line' := by
  rw [LspPosition.lt_iff]
  simp only [placePosition]
  rcases Nat.lt_trichotomy k k' with before | same | behind
  · simp only [before, true_or, true_iff]
    exact placeOffset_lt_of_line_lt place other before
  · subst same
    have : line = line' := Option.some.inj (place.at_line.symm.trans other.at_line)
    subst this
    have units : utf16Len (line.content.take i) < utf16Len (line.content.take i') ↔ i < i' :=
      span_take_lt_iff utf16Size_pos place.within other.within
    have bytes : utf8Len (line.content.take i) < utf8Len (line.content.take i') ↔ i < i' :=
      span_take_lt_iff Char.utf8Size_pos place.within other.within
    simp [Nat.lt_irrefl, false_or, true_and, units, placeOffset, Nat.add_lt_add_iff_left, bytes]
  · have := placeOffset_lt_of_line_lt other place behind
    constructor
    · intro h
      rcases h with h | h
      · omega
      · omega
    · intro h
      omega

theorem place_unique
    (same : placeOffset text k i line = placeOffset text k' i' line') : k = k' ∧ i = i' ∧ line = line' := by
  have lines : k = k' := by
    rcases Nat.lt_trichotomy k k' with before | same_line | behind
    · exact absurd same (Nat.ne_of_lt (placeOffset_lt_of_line_lt place other before))
    · exact same_line
    · exact absurd same (Nat.ne_of_gt (placeOffset_lt_of_line_lt other place behind))
  subst lines
  have : line = line' := Option.some.inj (place.at_line.symm.trans other.at_line)
  subst this
  exact ⟨rfl, span_take_inj Char.utf8Size_pos place.within other.within (Nat.add_left_cancel same), rfl⟩

end

end Order

/-! ## 3. The round trips -/

/-- The place of an offset has a one-based line or column that does not fit 32 bits. -/
def OneBasedOverflow (text : List Char) (offset : Nat) : Prop :=
  ∃ k i line, Place text k i line ∧ offset = placeOffset text k i line ∧ (u32Max ≤ k ∨ u32Max ≤ i)

/-- A character offset between the two UTF-16 units of a character. -/
def InsideSurrogatePair (content : List Char) (character : Nat) : Prop :=
  ∃ front pair back, content = front ++ pair :: back ∧ utf16Size pair = 2 ∧ character = utf16Len front + 1

/-- **What the conversions of the index of a text do.** -/
structure Converts (text : List Char) (index : LineIndex) : Prop where
  /-- An offset with a position is the offset of the position. -/
  offset_back : ∀ offset position,
    index.lspPosition offset = some position → index.offsetForLspPosition position = some offset
  /-- A position with an offset is the position of the offset, where the one-based numbers fit. -/
  position_back : ∀ position offset, index.offsetForLspPosition position = some offset →
    ¬ OneBasedOverflow text offset → index.lspPosition offset = some position
  /-- Positions are ordered as their offsets. -/
  ordered : ∀ position offset position' offset', index.offsetForLspPosition position = some offset →
    index.offsetForLspPosition position' = some offset' → (position < position' ↔ offset < offset')
  /-- The offsets without a position. -/
  no_position : ∀ offset, index.lspPosition offset = none ↔
    utf8Len text < offset ∨ ¬ OnBoundary text offset ∨ InsideCrlf text offset ∨ OneBasedOverflow text offset
  /-- The positions without an offset: there is no such line, or the character is past the end of the line
  or inside a surrogate pair. -/
  no_offset : ∀ position, index.offsetForLspPosition position = none ↔ (textLines text).length ≤ position.line ∨
      ∃ line, (textLines text)[position.line]? = some line ∧
        (utf16Len line.content < position.character ∨ InsideSurrogatePair line.content position.character)
  /-- One-based numbers overflow only at the end of a text of the greatest length. -/
  overflow : ∀ offset, OneBasedOverflow text offset → offset = u32Max ∧ utf8Len text = u32Max

theorem le_lineStart {k : Nat} (lt : k < (textLines text).length) : k ≤ lineStart text k := by
  induction k with
  | zero => exact Nat.zero_le _
  | succ k ih =>
    have at_line := getElem?_eq_getElem (Nat.lt_of_succ_lt lt)
    calc k + 1 ≤ lineStart text k + 1 := Nat.succ_le_succ (ih (Nat.lt_of_succ_lt lt))
      _ ≤ lineStart text (k + 1) := placeOffset_lt (i := 0) ⟨at_line, Nat.zero_le _⟩ lt

/-- A one-based number is too large only where the text has as many bytes. -/
theorem overflow_at_end (fits : utf8Len text ≤ u32Max)
    (large : OneBasedOverflow text offset) : offset = u32Max ∧ utf8Len text = u32Max := by
  obtain ⟨k, i, line, place, here, large⟩ := large
  have lines := le_lineStart (List.getElem_of_getElem? place.at_line).1
  have characters := length_le_utf8Len (line.content.take i)
  rw [length_take, Nat.min_eq_left place.within] at characters
  have last := placeOffset_le place
  rw [here]
  unfold placeOffset at last ⊢
  omega

/-- A character offset of a line is at a character, past the end, or inside a surrogate pair. -/
theorem utf16_cases (content : List Char) (character : Nat) :
    (∃ i ≤ content.length, character = utf16Len (content.take i)) ∨
      utf16Len content < character ∨ InsideSurrogatePair content character := by
  induction content generalizing character with
  | nil =>
    rcases Nat.eq_zero_or_pos character with start | past
    · exact .inl ⟨0, Nat.le_refl _, start⟩
    · exact .inr (.inl past)
  | cons first content ih =>
    by_cases start : character = 0
    · exact .inl ⟨0, Nat.zero_le _, start⟩
    by_cases inside : character < utf16Size first
    · have := utf16Size_le_two first
      exact .inr (.inr ⟨[], first, content, rfl, by omega, by rw [utf16Len_nil]; omega⟩)
    obtain ⟨rest, behind⟩ := Nat.exists_eq_add_of_le (Nat.not_lt.mp inside)
    rcases ih rest with ⟨i, within, here⟩ | past | ⟨front, pair, back, split, two, here⟩
    · exact .inl ⟨i + 1, by simpa using within, by simp [behind, here]⟩
    · exact .inr (.inl (by rw [utf16Len_cons]; omega))
    · refine .inr (.inr ⟨first :: front, pair, back, by rw [split]; rfl, two, ?_⟩)
      rw [behind, here, utf16Len_cons, Nat.add_assoc]

/-- What is past the end or inside a surrogate pair is at no character. -/
theorem not_at_character {content : List Char} {character i : Nat}
    (outside : utf16Len content < character ∨ InsideSurrogatePair content character) :
    character ≠ utf16Len (content.take i) := by
  intro here
  rcases outside with past | ⟨front, pair, back, split, two, inside⟩
  · have : utf16Len (content.take i) ≤ utf16Len content := span_take_le _ _ _
    omega
  · have before : utf16Len (content.take front.length) = utf16Len front := by
      rw [split, take_left']
      rfl
    have behind : utf16Len (content.take (front.length + 1)) = utf16Len front + 2 := by
      have : content.take (front.length + 1) = front ++ [pair] := by
        rw [split]
        simp [take_append, take_of_length_le]
      rw [this, utf16Len_append, utf16Len_cons, two, utf16Len_nil]
    have monotone {m n : Nat} (le : m ≤ n) : utf16Len (content.take m) ≤ utf16Len (content.take n) := by
      have : utf16Len ((content.take n).take m) ≤ utf16Len (content.take n) := span_take_le _ _ _
      rwa [take_take, Nat.min_eq_left le] at this
    rcases Nat.lt_or_ge i (front.length + 1) with short | long
    · have := monotone (Nat.le_of_lt_succ short)
      omega
    · have := monotone long
      omega

/-- **The index of a text converts between its offsets and its positions.** -/
theorem indexOf_converts (fits : utf8Len text ≤ u32Max) : Converts text (indexOf text) where
  offset_back := by
    intro offset position at_offset
    obtain ⟨k, i, line, place, here, -, -, there⟩ := lspPosition_eq_some.mp at_offset
    exact offsetForLspPosition_eq_some.mpr ⟨k, i, line, place, there, here⟩
  position_back := by
    intro position offset at_position fitting
    obtain ⟨k, i, line, place, there, here⟩ := offsetForLspPosition_eq_some.mp at_position
    have small : ¬ (u32Max ≤ k ∨ u32Max ≤ i) := fun large => fitting ⟨k, i, line, place, here, large⟩
    exact lspPosition_eq_some.mpr ⟨k, i, line, place, here, by omega, by omega, there⟩
  ordered := by
    intro position offset position' offset' at_position at_position'
    obtain ⟨k, i, line, place, rfl, rfl⟩ := offsetForLspPosition_eq_some.mp at_position
    obtain ⟨k', i', line', other, rfl, rfl⟩ := offsetForLspPosition_eq_some.mp at_position'
    exact place_lt_iff place other
  no_position := by
    intro offset
    rw [Option.eq_none_iff_forall_not_mem]
    constructor
    · intro none_at
      by_cases boundary : OnBoundary text offset ∧ ¬ InsideCrlf text offset
      · obtain ⟨k, i, line, place, here⟩ := place_iff_boundary.mpr boundary
        by_cases large : u32Max ≤ k ∨ u32Max ≤ i
        · exact .inr (.inr (.inr ⟨k, i, line, place, here, large⟩))
        · refine absurd (lspPosition_eq_some.mpr ⟨k, i, line, place, here, ?_, ?_, rfl⟩) (none_at _)
          · omega
          · omega
      · by_cases on : OnBoundary text offset
        · exact .inr (.inr (.inl (Classical.byContradiction fun out => boundary ⟨on, out⟩)))
        · exact .inr (.inl on)
    · intro invalid position at_offset
      obtain ⟨k, i, line, place, here, line_le, column_le, -⟩ := lspPosition_eq_some.mp at_offset
      have boundary := place_iff_boundary.mp ⟨k, i, line, place, here⟩
      rcases invalid with past | off | inside | ⟨k', i', line', other, there, large⟩
      · have := placeOffset_le place
        omega
      · exact off boundary.1
      · exact boundary.2 inside
      · obtain ⟨rfl, rfl, -⟩ := place_unique place other (here.symm.trans there)
        omega
  no_offset := by
    intro position
    rw [Option.eq_none_iff_forall_not_mem]
    constructor
    · intro none_at
      cases at_line : (textLines text)[position.line]? with
      | none => exact .inl (getElem?_eq_none_iff.mp at_line)
      | some line =>
        rcases utf16_cases line.content position.character with ⟨i, within, here⟩ | outside
        · have found := offsetForLspPosition_eq_some.mpr
            ⟨position.line, i, line, ⟨at_line, within⟩, by rw [placePosition, ← here], rfl⟩
          exact absurd found (none_at _)
        · exact .inr ⟨line, rfl, outside⟩
    · intro invalid offset at_position
      obtain ⟨k, i, line, place, rfl, -⟩ := offsetForLspPosition_eq_some.mp at_position
      rcases invalid with missing | ⟨line', at_line', outside⟩
      · have := (List.getElem_of_getElem? place.at_line).1
        exact absurd missing (Nat.not_le.mpr this)
      · have : line = line' := Option.some.inj (place.at_line.symm.trans at_line')
        subst this
        exact not_at_character outside rfl
  overflow := fun _ large => overflow_at_end fits large

/-- **THE ROUND TRIPS**: a text that fits 32 bits has an index whose conversions between byte offsets and
UTF-16 positions undo each other, agree on the order, and fail exactly on the invalid offsets and positions;
a longer text is refused. -/
theorem line_index_converts (text : List Char) :
    (utf8Len text ≤ u32Max ∧ ∃ index, LineIndex.new text = .ok index ∧ Converts text index) ∨
      (u32Max < utf8Len text ∧ LineIndex.new text = .error .textSizeOverflow) := by
  rw [lineIndex_new_eq]
  by_cases fits : utf8Len text ≤ u32Max
  · rw [if_pos fits]
    exact .inl ⟨fits, _, rfl, indexOf_converts fits⟩
  · rw [if_neg fits]
    exact .inr ⟨Nat.not_le.mp fits, rfl⟩

/-- Between the CR and the LF of a CRLF there is a character boundary within the text, and no position. -/
theorem crlf_inside_has_no_position : OnBoundary ['\r', '\n'] 1 ∧ 1 ≤ utf8Len ['\r', '\n'] ∧
    (LineIndex.new ['\r', '\n']).toOption.map (fun index => index.lspPosition 1) = some none :=
  ⟨⟨['\r'], ['\n'], rfl, by decide⟩, by decide, by decide +kernel⟩

end Bray.Source
