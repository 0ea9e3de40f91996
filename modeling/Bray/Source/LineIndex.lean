/-
  File:      Bray/Source/LineIndex.lean
  Subject:   THE LINE INDEX of a source text: the lines with the byte offset and the UTF-16 column of every
  character, and the conversions between byte offsets and editor positions.

  A text is the list of its characters. LF and CRLF break lines; a lone CR is indexed as a line break too.
  An offset between the CR and the LF of a CRLF belongs to no line. Positions are resolved together with
  the one-based line and column, which have to fit 32 bits.
-/
import Bray.Lib.Text

namespace Bray.Source

open Bray.Lib

def u32Max : Nat := 2 ^ 32 - 1

inductive TextSizeOverflow where
  | textSizeOverflow

/-- The checked conversion to a 32-bit text size. -/
def TextSize.tryFrom (value : Nat) : Except TextSizeOverflow Nat :=
  if value ≤ u32Max then .ok value else .error .textSizeOverflow

/-- The checked conversion of an index to 32 bits. -/
def u32TryFrom (value : Nat) : Option Nat := if value ≤ u32Max then some value else none

/-- The checked addition of one to a 32-bit number. -/
def checkedAddOne (value : Nat) : Option Nat := if value + 1 ≤ u32Max then some (value + 1) else none

/-- One-based source line and Unicode-scalar column. -/
structure LineColumn where
  line : Nat
  column : Nat

/-- Zero-based position that counts UTF-16 code units. -/
structure LspPosition where
  line : Nat
  character : Nat
  deriving DecidableEq

/-- Positions are ordered by line, then by character. -/
instance : LT LspPosition where
  lt a b := a.line < b.line ∨ a.line = b.line ∧ a.character < b.character

theorem LspPosition.lt_iff {a b : LspPosition} :
  a < b ↔ a.line < b.line ∨ a.line = b.line ∧ a.character < b.character := Iff.rfl

structure ResolvedPosition where
  lineColumn : LineColumn
  lspPosition : LspPosition

/-! ## 1. Line breaks -/

inductive SourceLineBreakKind where
  | lineFeed
  | carriageReturnLineFeed
  deriving DecidableEq

def SourceLineBreakKind.byteLen : SourceLineBreakKind → Nat
  | .lineFeed => 1
  | .carriageReturnLineFeed => 2

/-- The accepted line break that begins at a character. -/
def lineBreakKind (character : Char) (nextCharacter : Option Char) : Option SourceLineBreakKind :=
  if character = '\r' ∧ nextCharacter = some '\n' then some .carriageReturnLineFeed
  else if character = '\n' then some .lineFeed
  else none

structure IndexedLineBreak where
  byteLen : Nat
  consumesNextCharacter : Bool
  deriving DecidableEq

/-- The line break that the index sees at a character: an accepted one, or a lone CR. -/
def sourceLineBreak (character : Char) (nextCharacter : Option Char) : Option IndexedLineBreak :=
  if character = '\r' ∧ nextCharacter ≠ some '\n' then some ⟨1, false⟩
  else (lineBreakKind character nextCharacter).map fun kind =>
    ⟨kind.byteLen, kind = .carriageReturnLineFeed⟩

/-! ## 2. One line -/

structure LineMetrics where
  start : Nat
  «end» : Nat
  characterOffsets : List Nat
  utf16Columns : List Nat
  utf16Len : Nat

def LineMetrics.new (start : Nat) : LineMetrics := ⟨start, start, [], [], 0⟩

def LineMetrics.pushCharacter (metrics : LineMetrics) (offset : Nat) (character : Char) : LineMetrics :=
  { metrics with
    characterOffsets := metrics.characterOffsets ++ [offset]
    utf16Columns := metrics.utf16Columns ++ [metrics.utf16Len]
    utf16Len := metrics.utf16Len + utf16Size character }

/-- The index of the character at an offset; the end of the line counts as one behind the last. -/
def LineMetrics.characterIndex (metrics : LineMetrics) (offset : Nat) : Option Nat :=
  match binarySearch metrics.characterOffsets offset with
  | .ok index => some index
  | .error index => if offset = metrics.end then some index else none

def LineMetrics.position (metrics : LineMetrics) (offset lineNumber : Nat) : Option ResolvedPosition := do
  if offset < metrics.start ∨ metrics.end < offset then
    none
  else
    let characterIndex ← metrics.characterIndex offset
    let zeroBasedColumn ← u32TryFrom characterIndex
    let line ← checkedAddOne lineNumber
    let column ← checkedAddOne zeroBasedColumn
    let utf16Column := (metrics.utf16Columns[characterIndex]?).getD metrics.utf16Len
    some ⟨⟨line, column⟩, ⟨lineNumber, utf16Column⟩⟩

def LineMetrics.offsetForLspCharacter (metrics : LineMetrics) (character : Nat) : Option Nat :=
  match binarySearch metrics.utf16Columns character with
  | .ok index => metrics.characterOffsets[index]?
  | .error index =>
    if index = metrics.utf16Columns.length ∧ character = metrics.utf16Len then some metrics.end else none

/-! ## 3. The index -/

structure LineIndex where
  textLen : Nat
  lines : List LineMetrics

/-- The characters of a text with the byte offsets at which they begin. -/
def charIndices (start : Nat) : List Char → List (Nat × Char)
  | [] => []
  | character :: rest => (start, character) :: charIndices (start + character.utf8Size) rest

/-- The loop of `LineIndex.new`. Behind the last character the open line ends with the text. -/
def indexLines (textLen : Nat) (lines : List LineMetrics) (currentLine : LineMetrics) :
  List (Nat × Char) → Except TextSizeOverflow (List LineMetrics)
  | [] => .ok (lines ++ [{ currentLine with «end» := textLen }])
  | (byteIndex, character) :: characters => do
    let offset ← TextSize.tryFrom byteIndex
    match sourceLineBreak character (characters.head?.map Prod.snd) with
    | some lineBreak =>
      let nextLineStart ← TextSize.tryFrom (byteIndex + lineBreak.byteLen)
      indexLines textLen (lines ++ [{ currentLine with «end» := offset }]) (.new nextLineStart)
        (if lineBreak.consumesNextCharacter then characters.tail else characters)
    | none => indexLines textLen lines (currentLine.pushCharacter offset character) characters
  termination_by characters => characters.length
  decreasing_by
    · split
      · simp only [List.length_tail, List.length_cons]
        omega
      · simp
    · simp

def LineIndex.new (text : List Char) : Except TextSizeOverflow LineIndex := do
  let textLen ← TextSize.tryFrom (utf8Len text)
  let lines ← indexLines textLen [] (.new 0) (charIndices 0 text)
  .ok ⟨textLen, lines⟩

/-- The last line that starts at the offset or before it. -/
def LineIndex.lineIndexForOffset (index : LineIndex) (offset : Nat) : Option Nat :=
  match binarySearch (index.lines.map LineMetrics.start) offset with
  | .ok line => some line
  | .error 0 => none
  | .error line => some (line - 1)

def LineIndex.position (index : LineIndex) (offset : Nat) : Option ResolvedPosition := do
  if index.textLen < offset then
    none
  else
    let lineIndex ← index.lineIndexForOffset offset
    let metrics ← index.lines[lineIndex]?
    let lineNumber ← u32TryFrom lineIndex
    metrics.position offset lineNumber

def LineIndex.lspPosition (index : LineIndex) (offset : Nat) : Option LspPosition :=
  (index.position offset).map ResolvedPosition.lspPosition

def LineIndex.offsetForLspPosition (index : LineIndex) (position : LspPosition) : Option Nat := do
  let metrics ← index.lines[position.line]?
  metrics.offsetForLspCharacter position.character

end Bray.Source
