/-
  File:      Bray/Source/Positions.lean
  Subject:   THE CONVERSIONS OF THE LINE INDEX ARE INVERSE TO EACH OTHER: what the index of a text says is
  stated over the lines of the text.

  `textLines` cuts a text into its lines. A place of the text is a line and a number of characters of its
  content; it has a byte offset and a UTF-16 position, and either of them determines it. The index finds
  the place of an offset (`position_eq_some`) and the place of a position (`offsetForLspPosition_eq_some`).
-/
import Bray.Source.LineIndex
import Bray.Lib.Check

namespace Bray.Source

open Bray.Lib List Option

/-! ## 1. The lines of a text -/

/-- A line: what it says, and the line break behind it (none behind the last line). -/
structure TextLine where
  content : List Char
  ending : List Char

def TextLine.byteLen (line : TextLine) : Nat := utf8Len line.content + utf8Len line.ending

/-- Characters put before the first line. -/
def prepend (characters : List Char) : List TextLine → List TextLine
  | [] => []
  | line :: lines => ⟨characters ++ line.content, line.ending⟩ :: lines

/-- **The lines of a text.** -/
def textLines : List Char → List TextLine
  | [] => [⟨[], []⟩]
  | '\r' :: '\n' :: rest => ⟨[], ['\r', '\n']⟩ :: textLines rest
  | character :: rest =>
    if character = '\r' ∨ character = '\n' then ⟨[], [character]⟩ :: textLines rest
    else prepend [character] (textLines rest)

/-- The byte offset at which a line begins. -/
def lineStart (text : List Char) (line : Nat) : Nat := span TextLine.byteLen ((textLines text).take line)

@[simp] theorem prepend_cons (characters : List Char) (line : TextLine) (lines : List TextLine) :
  prepend characters (line :: lines) = ⟨characters ++ line.content, line.ending⟩ :: lines := rfl

theorem prepend_nil (lines : List TextLine) : prepend [] lines = lines := by
  cases lines <;> rfl

theorem prepend_prepend (front back : List Char) (lines : List TextLine) :
    prepend front (prepend back lines) = prepend (front ++ back) lines := by
  cases lines <;> simp [prepend]

theorem textLines_ne_nil (text : List Char) : textLines text ≠ [] := by
  induction text using textLines.induct with
  | case1 => simp [textLines]
  | case2 rest ih => simp [textLines]
  | case3 character rest lone breaks ih => rw [textLines, if_pos breaks] <;> simp_all
  | case4 character rest lone plain ih =>
    rw [textLines, if_neg plain]
    · cases h : textLines rest with
      | nil => exact absurd h ih
      | cons line lines => simp [prepend]
    · exact lone

/-- The lines put together are the text. -/
theorem textLines_join (text : List Char) :
    (textLines text).flatMap (fun line => line.content ++ line.ending) = text := by
  have prepended (front : List Char) {lines : List TextLine} (ne : lines ≠ []) :
    (prepend front lines).flatMap (fun line => line.content ++ line.ending) =
      front ++ lines.flatMap (fun line => line.content ++ line.ending) := by
    cases lines with
    | nil => exact absurd rfl ne
    | cons line lines => simp [prepend]
  induction text using textLines.induct with
  | case1 => rfl
  | case2 rest ih => simp [textLines, ih]
  | case3 character rest lone breaks ih =>
    rw [textLines, if_pos breaks, flatMap_cons, ih]
    · rfl
    · exact lone
  | case4 character rest lone plain ih =>
    rw [textLines, if_neg plain, prepended _ (textLines_ne_nil rest), ih]
    · rfl
    · exact lone

theorem textLines_ending {text : List Char} {line : TextLine} (mem : line ∈ (textLines text).dropLast) :
    line.ending ≠ [] := by
  induction text using textLines.induct generalizing line with
  | case1 => simp [textLines] at mem
  | case2 rest ih =>
    rw [textLines, dropLast_cons_of_ne_nil (textLines_ne_nil rest)] at mem
    rcases mem_cons.mp mem with rfl | later
    · simp
    · exact ih later
  | case3 character rest lone breaks ih =>
    rw [textLines, if_pos breaks, dropLast_cons_of_ne_nil (textLines_ne_nil rest)] at mem
    · rcases mem_cons.mp mem with rfl | later
      · simp
      · exact ih later
    · exact lone
  | case4 character rest lone plain ih =>
    rw [textLines, if_neg plain] at mem
    · cases lines : textLines rest with
      | nil => exact absurd lines (textLines_ne_nil rest)
      | cons first others =>
        rw [lines] at mem ih
        cases others with
        | nil => simp [prepend] at mem
        | cons second others =>
          rcases mem_cons.mp mem with rfl | later
          · exact @ih first (.head _)
          · exact ih (.tail _ later)
    · exact lone

theorem textLines_byteLen_pos (text : List Char) : ∀ line ∈ (textLines text).dropLast, 0 < line.byteLen := by
  intro line mem
  have := utf8Len_pos (textLines_ending mem)
  unfold TextLine.byteLen
  omega

/-- A character behind which a CRLF does not begin. -/
theorem lone_head {character : Char} {rest : List Char}
    (lone : ∀ others, character = '\r' → rest = '\n' :: others → False) :
    ¬ (character = '\r' ∧ rest.head? = some '\n') := by
  intro ⟨first, second⟩
  cases rest with
  | nil => cases second
  | cons next others => exact lone others first (by rw [Option.some.inj second])

@[simp] theorem cr_utf8Size : '\r'.utf8Size = 1 := by decide

@[simp] theorem lf_utf8Size : '\n'.utf8Size = 1 := by decide

/-! ## 2. What the index holds -/

/-- The metrics of a line that begins at an offset. -/
def lineMetrics (start : Nat) (content : List Char) : LineMetrics :=
  ⟨start, start + utf8Len content, marks Char.utf8Size start content, marks utf16Size 0 content, utf16Len content⟩

/-- The metrics of a line whose end is not known yet. -/
def openMetrics (start : Nat) (content : List Char) : LineMetrics :=
  { lineMetrics start content with «end» := start }

def metricsFrom (start : Nat) : List TextLine → List LineMetrics
  | [] => []
  | line :: lines => lineMetrics start line.content :: metricsFrom (start + line.byteLen) lines

theorem new_eq_openMetrics (start : Nat) : LineMetrics.new start = openMetrics start [] := rfl

theorem openMetrics_push (start : Nat) (content : List Char) (character : Char) :
    (openMetrics start content).pushCharacter (start + utf8Len content) character =
      openMetrics start (content ++ [character]) := by
  simp [openMetrics, lineMetrics, LineMetrics.pushCharacter, marks_append, marks, utf8Len, utf16Len]

theorem openMetrics_close (start : Nat) (content : List Char) :
  { openMetrics start content with «end» := start + utf8Len content } = lineMetrics start content := rfl

theorem textSize_tryFrom_of_le {value : Nat} (fits : value ≤ u32Max) : TextSize.tryFrom value = .ok value :=
  if_pos fits

theorem charIndices_head (start : Nat) (text : List Char) :
    (charIndices start text).head?.map Prod.snd = text.head? := by
  cases text <;> rfl

/-- **The loop indexes the lines**: with a line begun and its first characters pushed, it appends the
metrics of every line of the rest. -/
theorem indexLines_eq {textLen start : Nat} {content rest : List Char} {done : List LineMetrics}
    (len : textLen = start + utf8Len content + utf8Len rest) (fits : textLen ≤ u32Max) :
    indexLines textLen done (openMetrics start content) (charIndices (start + utf8Len content) rest) =
      .ok (done ++ metricsFrom start (prepend content (textLines rest))) := by
  induction rest using textLines.induct generalizing start content done with
  | case1 =>
    rw [charIndices, indexLines, len]
    simp [textLines, prepend, metricsFrom, openMetrics_close]
  | case2 rest ih =>
    simp only [utf8Len_cons, cr_utf8Size, lf_utf8Size] at len
    have here : TextSize.tryFrom (start + utf8Len content) = .ok (start + utf8Len content) :=
      textSize_tryFrom_of_le (by omega)
    have next : TextSize.tryFrom (start + utf8Len content + 2) = .ok (start + utf8Len content + 2) :=
      textSize_tryFrom_of_le (by omega)
    have broken : sourceLineBreak '\r' (some '\n') = some ⟨2, true⟩ := by decide
    have later := @ih (start + utf8Len content + 2) [] (done ++ [lineMetrics start content])
      (by simp only [utf8Len_nil]; omega)
    rw [charIndices, indexLines, charIndices_head, here, except_ok_bind, head?_cons, broken]
    simp only [next, except_ok_bind, charIndices, tail_cons, if_true]
    rw [openMetrics_close, new_eq_openMetrics]
    simpa [textLines, prepend_nil, metricsFrom, TextLine.byteLen, Nat.add_assoc] using later
  | case3 character rest lone breaks ih =>
    have size : character.utf8Size = 1 := by
      rcases breaks with rfl | rfl
      · exact cr_utf8Size
      · exact lf_utf8Size
    rw [utf8Len_cons, size] at len
    have here : TextSize.tryFrom (start + utf8Len content) = .ok (start + utf8Len content) :=
      textSize_tryFrom_of_le (by omega)
    have next : TextSize.tryFrom (start + utf8Len content + 1) = .ok (start + utf8Len content + 1) :=
      textSize_tryFrom_of_le (by omega)
    have broken : sourceLineBreak character rest.head? = some ⟨1, false⟩ := by
      unfold sourceLineBreak lineBreakKind
      rcases breaks with rfl | rfl
      · rw [if_pos ⟨rfl, fun lf => lone_head lone ⟨rfl, lf⟩⟩]
      · rfl
    have later := @ih (start + utf8Len content + 1) [] (done ++ [lineMetrics start content])
      (by simp only [utf8Len_nil]; omega)
    rw [charIndices, indexLines, charIndices_head, here, except_ok_bind, broken]
    simp only [next, except_ok_bind, Bool.false_eq_true, if_false]
    rw [openMetrics_close, new_eq_openMetrics, textLines, if_pos breaks]
    · simpa [prepend_nil, metricsFrom, TextLine.byteLen, size, Nat.add_assoc] using later
    · exact lone
  | case4 character rest lone plain ih =>
    rw [utf8Len_cons] at len
    have here : TextSize.tryFrom (start + utf8Len content) = .ok (start + utf8Len content) :=
      textSize_tryFrom_of_le (by omega)
    have unbroken : sourceLineBreak character rest.head? = none := by
      have := not_or.mp plain
      simp [sourceLineBreak, lineBreakKind, this.1, this.2]
    have later := @ih start (content ++ [character]) done
      (by simp only [utf8Len_append, utf8Len_cons, utf8Len_nil]; omega)
    rw [charIndices, indexLines, charIndices_head, here, except_ok_bind, unbroken]
    rw [openMetrics_push, textLines, if_neg plain, prepend_prepend]
    · simpa [Nat.add_assoc] using later
    · exact lone

/-- **The index of a text holds the metrics of its lines**, and every text that fits 32 bits has one. -/
theorem lineIndex_new_eq (text : List Char) : LineIndex.new text =
    if utf8Len text ≤ u32Max then .ok ⟨utf8Len text, metricsFrom 0 (textLines text)⟩
    else .error .textSizeOverflow := by
  unfold LineIndex.new
  by_cases fits : utf8Len text ≤ u32Max
  · have lines := @indexLines_eq (utf8Len text) 0 [] text [] (by simp) fits
    rw [if_pos fits, textSize_tryFrom_of_le fits, except_ok_bind, new_eq_openMetrics]
    simp only [utf8Len_nil, Nat.add_zero, prepend_nil, nil_append] at lines
    rw [lines, except_ok_bind]
  · rw [if_neg fits, TextSize.tryFrom, if_neg fits, except_error_bind]

/-! ## 3. Finding a place in a line -/

section Line

variable {start offset character i : Nat} {content : List Char}

theorem marks_utf8_sorted (start : Nat) (content : List Char) :
    (marks Char.utf8Size start content).Pairwise (· < ·) :=
  marks_sorted (fun character _ => character.utf8Size_pos) start

theorem marks_utf16_sorted (start : Nat) (content : List Char) : (marks utf16Size start content).Pairwise (· < ·) :=
  marks_sorted (fun character _ => utf16Size_pos character) start

theorem marks_utf8_eq_some : (marks Char.utf8Size start content)[i]? = some offset ↔
  i < content.length ∧ offset = start + utf8Len (content.take i) := marks_getElem?_eq_some

theorem marks_utf16_eq_some : (marks utf16Size 0 content)[i]? = some character ↔
    i < content.length ∧ character = utf16Len (content.take i) := by
  rw [marks_getElem?_eq_some, Nat.zero_add]
  rfl

/-- **A search of the marks that misses a key at the end** stops behind the last of them. -/
theorem insertion_at_end {w : Char → Nat} (pos : ∀ c, 0 < w c) {index : Nat}
    (missed : binarySearch (marks w start content) (start + span w content) = .error index) :
    index = content.length := by
  obtain ⟨-, bound, below⟩ :=
    binarySearch_eq_error (marks_sorted (fun c _ => pos c) start) missed
  rw [length_marks] at bound
  refine Nat.le_antisymm bound (Nat.not_lt.mp fun short => ?_)
  have at_index := (marks_getElem?_eq_some (w := w)).mpr ⟨short, Eq.refl (start + _)⟩
  have lower := span_take_lt pos short (Nat.le_refl content.length)
  rw [take_length] at lower
  have := (below index _ at_index).mp (Nat.add_lt_add_left lower start)
  exact Nat.lt_irrefl _ this

/-- **The character at an offset**: the one that as many bytes of the line stand before. -/
theorem characterIndex_eq_some : (lineMetrics start content).characterIndex offset = some i ↔
    i ≤ content.length ∧ offset = start + utf8Len (content.take i) := by
  have sorted := marks_utf8_sorted start content
  unfold LineMetrics.characterIndex lineMetrics
  cases found : binarySearch (marks Char.utf8Size start content) offset with
  | ok index =>
    have at_index := marks_utf8_eq_some.mp ((binarySearch_eq_ok sorted).mp found)
    simp only [Option.some.injEq]
    constructor
    · intro same
      subst same
      exact ⟨Nat.le_of_lt at_index.1, at_index.2⟩
    · intro ⟨bound, here⟩
      exact span_take_inj Char.utf8Size_pos (Nat.le_of_lt at_index.1) bound
        (Nat.add_left_cancel (at_index.2.symm.trans here))
  | error index =>
    show (if offset = start + utf8Len content then some index else none) = some i ↔ _
    by_cases at_end : offset = start + utf8Len content
    · subst at_end
      have last : index = content.length := insertion_at_end Char.utf8Size_pos found
      rw [if_pos rfl, Option.some.injEq, last]
      constructor
      · intro same
        rw [← same, take_length]
        exact ⟨Nat.le_refl _, rfl⟩
      · intro ⟨bound, here⟩
        refine span_take_inj Char.utf8Size_pos (Nat.le_refl _) bound ?_
        rw [take_length]
        exact Nat.add_left_cancel here
    · rw [if_neg at_end]
      simp only [reduceCtorEq, false_iff]
      intro ⟨bound, here⟩
      rcases Nat.lt_or_eq_of_le bound with inside | last
      · have := (binarySearch_eq_ok sorted).mpr (marks_utf8_eq_some.mpr ⟨inside, here⟩)
        rw [this] at found
        cases found
      · rw [last, take_length] at here
        exact at_end here

/-- **The offset at a character of a line.** -/
theorem offsetForLspCharacter_eq_some : (lineMetrics start content).offsetForLspCharacter character = some offset ↔
      ∃ i ≤ content.length, character = utf16Len (content.take i) ∧ offset = start + utf8Len (content.take i) := by
  have sorted := marks_utf16_sorted 0 content
  unfold LineMetrics.offsetForLspCharacter lineMetrics
  cases found : binarySearch (marks utf16Size 0 content) character with
  | ok index =>
    have at_index := marks_utf16_eq_some.mp ((binarySearch_eq_ok sorted).mp found)
    rw [marks_utf8_eq_some]
    constructor
    · intro here
      exact ⟨index, Nat.le_of_lt here.1, at_index.2, here.2⟩
    · intro ⟨i, bound, here, there⟩
      have same := span_take_inj utf16Size_pos (Nat.le_of_lt at_index.1) bound (at_index.2.symm.trans here)
      subst same
      exact ⟨at_index.1, there⟩
  | error index =>
    simp only [length_marks]
    constructor
    · intro here
      split at here
      · rename_i at_end
        refine ⟨content.length, Nat.le_refl _, ?_⟩
        rw [take_length]
        exact ⟨at_end.2, (Option.some.inj here).symm⟩
      · cases here
    · intro ⟨i, bound, here, there⟩
      rcases Nat.lt_or_eq_of_le bound with inside | last
      · have := (binarySearch_eq_ok sorted).mpr (marks_utf16_eq_some.mpr ⟨inside, here⟩)
        rw [this] at found
        cases found
      · rw [last, take_length] at here there
        have zero : character = 0 + span utf16Size content := by rw [here, Nat.zero_add]; rfl
        have := insertion_at_end utf16Size_pos (zero ▸ found)
        rw [if_pos ⟨this, here⟩, there]

theorem utf8Len_take_le (content : List Char) (i : Nat) : utf8Len (content.take i) ≤ utf8Len content :=
  span_take_le _ content i

/-- **The position of an offset in a line.** The one-based numbers have to fit 32 bits. -/
theorem lineMetrics_position_eq_some {line : Nat} {resolved : ResolvedPosition} :
    (lineMetrics start content).position offset line = some resolved ↔
      ∃ i ≤ content.length, offset = start + utf8Len (content.take i) ∧ line + 1 ≤ u32Max ∧ i + 1 ≤ u32Max ∧
        resolved = ⟨⟨line + 1, i + 1⟩, ⟨line, utf16Len (content.take i)⟩⟩ := by
  have column (i : Nat) (bound : i ≤ content.length) :
    ((marks utf16Size 0 content)[i]?).getD (utf16Len content) = utf16Len (content.take i) := by
    rcases Nat.lt_or_eq_of_le bound with inside | last
    · rw [marks_utf16_eq_some.mpr ⟨inside, rfl⟩]
      rfl
    · rw [last, take_length, getElem?_eq_none (Nat.le_of_eq (length_marks _ _ _))]
      rfl
  unfold LineMetrics.position
  constructor
  · intro h
    split at h
    · cases h
    · simp only [bind_eq_bind, bind_eq_some_iff] at h
      obtain ⟨i, at_i, i', small, line', fitsLine, column', fitsColumn, same⟩ := h
      obtain ⟨bound, here⟩ := characterIndex_eq_some.mp at_i
      unfold u32TryFrom at small
      unfold checkedAddOne at fitsLine fitsColumn
      split at small
      · cases small
        split at fitsLine
        · cases fitsLine
          split at fitsColumn
          · rename_i line_le column_le
            cases fitsColumn
            refine ⟨i, bound, here, line_le, column_le, ?_⟩
            rw [← Option.some.inj same]
            simp only [lineMetrics, column i bound]
          · cases fitsColumn
        · cases fitsLine
      · cases small
  · intro ⟨i, bound, here, line_le, column_le, same⟩
    have := utf8Len_take_le content i
    have inside : ¬ (offset < (lineMetrics start content).start ∨ (lineMetrics start content).end < offset) := by
      simp only [lineMetrics]
      omega
    have small : u32TryFrom i = some i := if_pos (by omega)
    have fitsLine : checkedAddOne line = some (line + 1) := if_pos line_le
    have fitsColumn : checkedAddOne i = some (i + 1) := if_pos column_le
    rw [if_neg inside, characterIndex_eq_some.mpr ⟨bound, here⟩]
    simp only [some_bind, small, fitsLine, fitsColumn]
    rw [same]
    simp only [lineMetrics, column i bound]

end Line

/-! ## 4. Finding a place in the text -/

theorem metricsFrom_starts (start : Nat) (lines : List TextLine) :
    (metricsFrom start lines).map LineMetrics.start = marks TextLine.byteLen start lines := by
  induction lines generalizing start with
  | nil => rfl
  | cons line lines ih =>
    rw [metricsFrom, map_cons, ih, marks]
    rfl

theorem metricsFrom_getElem? {start : Nat} {lines : List TextLine} {k : Nat} : (metricsFrom start lines)[k]? =
      lines[k]?.map fun line => lineMetrics (start + span TextLine.byteLen (lines.take k)) line.content := by
  induction lines generalizing start k with
  | nil => rfl
  | cons line lines ih =>
    cases k with
    | zero => simp [metricsFrom]
    | succ k => simp [metricsFrom, ih, Nat.add_assoc]

def indexOf (text : List Char) : LineIndex := ⟨utf8Len text, metricsFrom 0 (textLines text)⟩

theorem indexOf_lines_getElem? {text : List Char} {k : Nat} : (indexOf text).lines[k]? =
    (textLines text)[k]?.map fun line => lineMetrics (lineStart text k) line.content := by
  show (metricsFrom 0 (textLines text))[k]? = _
  rw [metricsFrom_getElem?, Nat.zero_add]
  rfl

/-- A place of a text: so many characters into the content of a line. -/
structure Place (text : List Char) (k i : Nat) (line : TextLine) : Prop where
  at_line : (textLines text)[k]? = some line
  within : i ≤ line.content.length

/-- The byte offset of a place. -/
def placeOffset (text : List Char) (k i : Nat) (line : TextLine) : Nat :=
  lineStart text k + utf8Len (line.content.take i)

def placePosition (k i : Nat) (line : TextLine) : LspPosition := ⟨k, utf16Len (line.content.take i)⟩

section Text

variable {text : List Char} {k i : Nat} {line : TextLine}

theorem lineStart_succ (at_line : (textLines text)[k]? = some line) :
    lineStart text (k + 1) = lineStart text k + line.byteLen := by
  obtain ⟨bound, here⟩ := List.getElem_of_getElem? at_line
  unfold lineStart
  rw [span_take_succ bound, get_eq_getElem, here]

theorem lineStart_mono {j : Nat} (le : j ≤ k) : lineStart text j ≤ lineStart text k := by
  have := span_take_le TextLine.byteLen ((textLines text).take k) j
  rwa [take_take, Nat.min_eq_left le] at this

/-- The lines together are as long as the text. -/
theorem lineStart_le (text : List Char) (k : Nat) : lineStart text k ≤ utf8Len text := by
  have whole (lines : List TextLine) :
    span TextLine.byteLen lines = utf8Len (lines.flatMap fun line => line.content ++ line.ending) := by
    induction lines with
    | nil => rfl
    | cons line lines ih =>
      rw [span_cons, ih, flatMap_cons, utf8Len_append, utf8Len_append]
      rfl
  have := span_take_le TextLine.byteLen (textLines text) k
  rwa [whole (textLines text), textLines_join] at this

/-- A place comes before the next line. -/
theorem placeOffset_lt (place : Place text k i line) (more : k + 1 < (textLines text).length) :
    placeOffset text k i line < lineStart text (k + 1) := by
  have inside := utf8Len_take_le line.content i
  have broken : 0 < utf8Len line.ending := by
    obtain ⟨bound, here⟩ := List.getElem_of_getElem? place.at_line
    have kept : line ∈ (textLines text).dropLast := by
      refine mem_iff_getElem.mpr ⟨k, by rw [length_dropLast]; omega, ?_⟩
      rw [getElem_dropLast, here]
    exact utf8Len_pos (textLines_ending kept)
  rw [lineStart_succ place.at_line, placeOffset, TextLine.byteLen]
  omega

theorem placeOffset_le (place : Place text k i line) : placeOffset text k i line ≤ utf8Len text := by
  have inside := utf8Len_take_le line.content i
  have := lineStart_le text (k + 1)
  rw [lineStart_succ place.at_line, TextLine.byteLen] at this
  unfold placeOffset
  omega

/-- **The line of an offset**: the search for the line start that is last at the offset or before it. -/
theorem lineIndexForOffset_placeOffset (place : Place text k i line) :
    (indexOf text).lineIndexForOffset (placeOffset text k i line) = some k := by
  have sorted : (marks TextLine.byteLen 0 (textLines text)).Pairwise (· < ·) :=
    marks_sorted (textLines_byteLen_pos text) 0
  obtain ⟨bound, -⟩ := List.getElem_of_getElem? place.at_line
  have mark {j : Nat} (lt : j < (textLines text).length) :
    (marks TextLine.byteLen 0 (textLines text))[j]? = some (lineStart text j) :=
    marks_getElem?_eq_some.mpr ⟨lt, (Nat.zero_add _).symm⟩
  have after : lineStart text k ≤ placeOffset text k i line := Nat.le_add_right _ _
  unfold LineIndex.lineIndexForOffset
  rw [show (indexOf text).lines = metricsFrom 0 (textLines text) from rfl, metricsFrom_starts]
  cases found : binarySearch (marks TextLine.byteLen 0 (textLines text)) (placeOffset text k i line) with
  | ok j =>
    have at_j := (binarySearch_eq_ok sorted).mp found
    obtain ⟨lt, here⟩ := marks_getElem?_eq_some.mp at_j
    rw [Nat.zero_add] at here
    change _ = lineStart text j at here
    refine congrArg some (show j = k from ?_)
    rcases Nat.lt_trichotomy j k with before | same | behind
    · have := (pairwise_iff_getElem.mp sorted) j k (by simpa) (by simpa) before
      have first := (List.getElem_of_getElem? (mark lt)).2
      have second := (List.getElem_of_getElem? (mark bound)).2
      omega
    · exact same
    · have := placeOffset_lt place (by omega)
      have : lineStart text (k + 1) ≤ lineStart text j := lineStart_mono behind
      omega
  | error j =>
    obtain ⟨missing, le, below⟩ := binarySearch_eq_error sorted found
    rw [length_marks] at le
    have first : k < j := by
      refine (below k _ (mark bound)).mp (Nat.lt_of_le_of_ne after fun same => ?_)
      exact missing (same ▸ mem_of_getElem? (mark bound))
    have last : j ≤ k + 1 := by
      refine Nat.not_lt.mp fun lt => ?_
      have more : k + 1 < (textLines text).length := Nat.lt_of_lt_of_le lt le
      have := (below (k + 1) _ (mark more)).mpr lt
      have := placeOffset_lt place more
      omega
    have : j = k + 1 := by omega
    rw [this]
    rfl

/-- **The position of an offset**: the offset is that of a place whose one-based line and column fit. -/
theorem position_eq_some {offset : Nat} {resolved : ResolvedPosition} :
    (indexOf text).position offset = some resolved ↔
      ∃ k i line, Place text k i line ∧ offset = placeOffset text k i line ∧
        k + 1 ≤ u32Max ∧ i + 1 ≤ u32Max ∧ resolved = ⟨⟨k + 1, i + 1⟩, placePosition k i line⟩ := by
  unfold LineIndex.position
  constructor
  · intro h
    split at h
    · cases h
    · simp only [bind_eq_bind, bind_eq_some_iff] at h
      obtain ⟨k, -, metrics, at_k, k', small, at_metrics⟩ := h
      rw [indexOf_lines_getElem?, map_eq_some_iff] at at_k
      obtain ⟨line, at_line, rfl⟩ := at_k
      unfold u32TryFrom at small
      split at small
      · cases small
        obtain ⟨i, within, here, line_le, column_le, same⟩ := lineMetrics_position_eq_some.mp at_metrics
        exact ⟨k, i, line, ⟨at_line, within⟩, here, line_le, column_le, same⟩
      · cases small
  · intro ⟨k, i, line, place, here, line_le, column_le, same⟩
    have inside : ¬ (indexOf text).textLen < offset := by
      rw [here]
      exact Nat.not_lt.mpr (placeOffset_le place)
    have small : u32TryFrom k = some k := if_pos (by omega)
    rw [if_neg inside, here, lineIndexForOffset_placeOffset place]
    simp only [some_bind, indexOf_lines_getElem?, place.at_line, map_some, small]
    exact lineMetrics_position_eq_some.mpr ⟨i, place.within, rfl, line_le, column_le, same⟩

theorem lspPosition_eq_some {offset : Nat} {position : LspPosition} :
    (indexOf text).lspPosition offset = some position ↔
      ∃ k i line, Place text k i line ∧ offset = placeOffset text k i line ∧
        k + 1 ≤ u32Max ∧ i + 1 ≤ u32Max ∧ position = placePosition k i line := by
  unfold LineIndex.lspPosition
  rw [map_eq_some_iff]
  constructor
  · intro ⟨resolved, at_offset, same⟩
    obtain ⟨k, i, line, place, here, line_le, column_le, rfl⟩ := position_eq_some.mp at_offset
    exact ⟨k, i, line, place, here, line_le, column_le, same.symm⟩
  · intro ⟨k, i, line, place, here, line_le, column_le, same⟩
    exact ⟨_, position_eq_some.mpr ⟨k, i, line, place, here, line_le, column_le, rfl⟩, same.symm⟩

/-- **The offset of a position**: that of the place with the position. -/
theorem offsetForLspPosition_eq_some {position : LspPosition} {offset : Nat} :
    (indexOf text).offsetForLspPosition position = some offset ↔
      ∃ k i line, Place text k i line ∧ position = placePosition k i line ∧ offset = placeOffset text k i line := by
  unfold LineIndex.offsetForLspPosition
  simp only [bind_eq_bind, bind_eq_some_iff, indexOf_lines_getElem?, map_eq_some_iff]
  constructor
  · intro ⟨metrics, ⟨line, at_line, same⟩, at_metrics⟩
    subst same
    obtain ⟨i, within, here, there⟩ := offsetForLspCharacter_eq_some.mp at_metrics
    exact ⟨position.line, i, line, ⟨at_line, within⟩, by rw [placePosition, ← here], there⟩
  · intro ⟨k, i, line, place, here, there⟩
    subst here
    exact ⟨_, ⟨line, place.at_line, rfl⟩, offsetForLspCharacter_eq_some.mpr ⟨i, place.within, rfl, there⟩⟩

end Text

end Bray.Source
