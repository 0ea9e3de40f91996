/-
  File:      Bray/Lexer/Literal.lean
  Subject:   TRIVIA AND LITERALS (lexer/trivia.rs, lexer/literal/numeric.rs, lexer/literal/quoted.rs): where
    whitespace, comments, numbers, strings and characters end.

  Each function reads the bytes at an index and yields the index behind what it scanned.
-/
import Bray.Lexer.Data

namespace Bray.Lexer

open Lib

variable (text : List Char)

def byteAt (index : Nat) : Option UInt8 := (utf8Bytes text)[index]?

def textLen : Nat := utf8Len text

def byteOf (character : Char) : UInt8 := UInt8.ofNat character.toNat

def isAscii (byte : UInt8) : Bool := byte < 128

def isAsciiDigit (byte : UInt8) : Bool := byteOf '0' ≤ byte && byte ≤ byteOf '9'

def isAsciiAlphabetic (byte : UInt8) : Bool :=
  (byteOf 'a' ≤ byte && byte ≤ byteOf 'z') || (byteOf 'A' ≤ byte && byte ≤ byteOf 'Z')

def isAsciiAlphanumeric (byte : UInt8) : Bool := isAsciiAlphabetic byte || isAsciiDigit byte

/-! ## 1. Trivia -/

inductive TriviaPosition where
  | leading
  | trailing
  deriving DecidableEq

structure TriviaItem where
  trivia : SyntaxTrivia
  containsLineBreak : Bool

def whitespaceTurn (position : TriviaPosition) (index : Nat) (byte : UInt8) (containsLineBreak : Bool) :
  Option (Turn Bool) :=
  if byte = byteOf ' ' ∨ byte = byteOf '\t' then some (.next (index + 1) containsLineBreak)
  else if byte = byteOf '\n' then
    some (if position = .trailing then .stop (index + 1) true else .next (index + 1) true)
  else if byte = byteOf '\r' ∧ byteAt text (index + 1) = some (byteOf '\n') then
    some (if position = .trailing then .stop (index + 2) true else .next (index + 2) true)
  else some (.stop index containsLineBreak)

def scanWhitespaceTrivia (start : Nat) (position : TriviaPosition) : Option TriviaItem := do
  let (index, containsLineBreak) ← scanFrom (utf8Bytes text) (whitespaceTurn text position) start false
  some ⟨⟨.whitespaceTrivia, ⟨start, index⟩⟩, containsLineBreak⟩

def lineCommentTurn (index : Nat) (byte : UInt8) (_ : Unit) : Option (Turn Unit) :=
  some (if byte = byteOf '\n' ∨ byte = byteOf '\r' then .stop index () else .next (index + 1) ())

def scanLineCommentTrivia (start : Nat) : Option TriviaItem := do
  let (index, _) ← scanFrom (utf8Bytes text) lineCommentTurn (start + 2) ()
  let documentation ← startsWith text start "///".toList
  some ⟨⟨if documentation then .documentationLineCommentTrivia else .lineCommentTrivia, ⟨start, index⟩⟩, false⟩

/-- A turn in a block comment, with the depth of the comments that are open and whether a line broke. -/
def blockCommentTurn (index : Nat) (byte : UInt8) (state : Nat × Bool) : Option (Turn (Nat × Bool)) :=
  if byte = byteOf '\n' then some (.next (index + 1) (state.1, true))
  else if byte = byteOf '\r' ∧ byteAt text (index + 1) = some (byteOf '\n') then
    some (.next (index + 2) (state.1, true))
  else if byte = byteOf '/' ∧ byteAt text (index + 1) = some (byteOf '*') then
    some (.next (index + 2) (state.1 + 1, state.2))
  else if byte = byteOf '*' ∧ byteAt text (index + 1) = some (byteOf '/') then
    some (if state.1 - 1 = 0 then .stop (index + 2) (0, state.2) else .next (index + 2) (state.1 - 1, state.2))
  else (characterLenAt text index).map fun len => .next (index + len) state

def scanBlockCommentTrivia (start : Nat) : Option TriviaItem := do
  let (index, _, containsLineBreak) ← scanFrom (utf8Bytes text) (blockCommentTurn text) (start + 2) (1, false)
  let documentation ← startsWith text start "/**".toList
  some ⟨⟨if documentation then .documentationBlockCommentTrivia else .blockCommentTrivia, ⟨start, index⟩⟩,
    containsLineBreak⟩

/-- The trivia at an offset: none where something else begins. -/
def scanTriviaAt (start : Nat) (position : TriviaPosition) : Option (Option TriviaItem) :=
  match byteAt text start with
  | none => some none
  | some byte =>
    if byte = byteOf ' ' ∨ byte = byteOf '\t' ∨ byte = byteOf '\n' then
      (scanWhitespaceTrivia text start position).map some
    else if byte = byteOf '\r' ∧ byteAt text (start + 1) = some (byteOf '\n') then
      (scanWhitespaceTrivia text start position).map some
    else if byte = byteOf '/' ∧ byteAt text (start + 1) = some (byteOf '/') then
      (scanLineCommentTrivia text start).map some
    else if byte = byteOf '/' ∧ byteAt text (start + 1) = some (byteOf '*') then
      (scanBlockCommentTrivia text start).map some
    else some none

structure TriviaScan where
  trivia : List SyntaxTrivia
  «end» : Nat
  reachedEof : Bool

def triviaScan (cursor : Nat) (trivia : List SyntaxTrivia) : TriviaScan := ⟨trivia, cursor, cursor = textLen text⟩

def leadingTurn (index : Nat) (_ : UInt8) (trivia : List SyntaxTrivia) : Option (Turn (List SyntaxTrivia)) :=
  (scanTriviaAt text index .leading).map fun item =>
    match item with
    | none => .stop index trivia
    | some item => .next item.trivia.range.end (trivia ++ [item.trivia])

def scanLeadingTrivia (start : Nat) : Option TriviaScan := do
  let (cursor, trivia) ← scanFrom (utf8Bytes text) (leadingTurn text) start []
  some (triviaScan text cursor trivia)

/-- Behind a line break there is no more trailing trivia. -/
def trailingTurn (index : Nat) (_ : UInt8) (trivia : List SyntaxTrivia) : Option (Turn (List SyntaxTrivia)) :=
  (scanTriviaAt text index .trailing).map fun item =>
    match item with
    | none => .stop index trivia
    | some item =>
      if item.containsLineBreak then .stop item.trivia.range.end (trivia ++ [item.trivia])
      else .next item.trivia.range.end (trivia ++ [item.trivia])

def scanTrailingTrivia (start : Nat) : Option TriviaScan := do
  let (cursor, trivia) ← scanFrom (utf8Bytes text) (trailingTurn text) start []
  some (triviaScan text cursor trivia)

/-! ## 2. Numbers -/

structure DigitSequenceScan where
  endIndex : Nat
  sawDigit : Bool
  valid : Bool

/-- What a digit sequence has seen: a digit, a separator last, no misplaced separator. -/
structure DigitState where
  sawDigit : Bool
  previousWasSeparator : Bool
  valid : Bool

def digitTurn (isDigit : UInt8 → Bool) (index : Nat) (byte : UInt8) (state : DigitState) :
  Option (Turn DigitState) :=
  if isDigit byte then some (.next (index + 1) ⟨true, false, state.valid⟩)
  else if byte = byteOf '_' then
    some (.next (index + 1) ⟨state.sawDigit, true,
      if !state.sawDigit || state.previousWasSeparator || !(byteAt text (index + 1)).any isDigit then false
      else state.valid⟩)
  else some (.stop index state)

def scanDigitSequence (startIndex : Nat) (isDigit : UInt8 → Bool) : Option DigitSequenceScan := do
  let (index, state) ← scanFrom (utf8Bytes text) (digitTurn text isDigit) startIndex ⟨false, false, true⟩
  some ⟨index, state.sawDigit, state.valid && state.sawDigit && !state.previousWasSeparator⟩

structure NumericScan where
  kind : SyntaxKind
  endIndex : Nat
  valid : Bool

def hasRadixPrefix (startIndex : Nat) (lower upper : Char) : Bool :=
  byteAt text startIndex = some (byteOf '0') &&
    (byteAt text (startIndex + 1) = some (byteOf lower) || byteAt text (startIndex + 1) = some (byteOf upper))

def isBinaryDigit (byte : UInt8) : Bool := byte = byteOf '0' || byte = byteOf '1'

def isAsciiHexdigit (byte : UInt8) : Bool :=
  isAsciiDigit byte || (byteOf 'a' ≤ byte && byte ≤ byteOf 'f') || (byteOf 'A' ≤ byte && byte ≤ byteOf 'F')

def scanRadixInteger (startIndex : Nat) (kind : SyntaxKind) (isDigit : UInt8 → Bool) : Option NumericScan := do
  let digits ← scanDigitSequence text (startIndex + 2) isDigit
  some ⟨kind, digits.endIndex, digits.valid && digits.sawDigit⟩

def exponentStart (markerIndex : Nat) : Nat :=
  if byteAt text (markerIndex + 1) = some (byteOf '+') ∨ byteAt text (markerIndex + 1) = some (byteOf '-') then
    markerIndex + 2
  else markerIndex + 1

def scanExponentPart (markerIndex : Nat) : Option DigitSequenceScan := do
  let digits ← scanDigitSequence text (exponentStart text markerIndex) isAsciiDigit
  some ⟨digits.endIndex, digits.sawDigit, digits.valid && digits.sawDigit⟩

def isExponentMarker (byte : Option UInt8) : Bool := byte = some (byteOf 'e') || byte = some (byteOf 'E')

/-- What follows the integer digits of a decimal number: an exponent, or nothing. -/
def scanExponentOf (number : NumericScan) (kind : SyntaxKind) : Option NumericScan :=
  if isExponentMarker (byteAt text number.endIndex) then
    (scanExponentPart text number.endIndex).map fun exponent =>
      ⟨kind, exponent.endIndex, number.valid && exponent.valid⟩
  else some number

def scanDecimalNumeric (startIndex : Nat) : Option NumericScan := do
  let integer ← scanDigitSequence text startIndex isAsciiDigit
  let number : NumericScan := ⟨.decimalIntegerLiteralToken, integer.endIndex, integer.valid && integer.sawDigit⟩
  if byteAt text integer.endIndex = some (byteOf '.') ∧ (byteAt text (integer.endIndex + 1)).any isAsciiDigit then
    (scanDigitSequence text (integer.endIndex + 1) isAsciiDigit).bind fun fraction =>
      scanExponentOf text ⟨.realLiteralToken, fraction.endIndex, number.valid && fraction.valid && fraction.sawDigit⟩
        .realLiteralToken
  else scanExponentOf text number .realLiteralToken

def isNumericSuffixByte (byte : UInt8) : Bool := isAsciiAlphanumeric byte || byte = byteOf '_'

def invalidNumericTurn (index : Nat) (byte : UInt8) (previousWasExponentMarker : Bool) : Option (Turn Bool) :=
  if isAsciiAlphanumeric byte ∨ byte = byteOf '_' then
    some (.next (index + 1) (byte = byteOf 'e' || byte = byteOf 'E'))
  else if byte = byteOf '.' ∧ byteAt text (index + 1) ≠ some (byteOf '.') then some (.next (index + 1) false)
  else if (byte = byteOf '+' ∨ byte = byteOf '-') ∧ previousWasExponentMarker = true then
    some (.next (index + 1) false)
  else some (.stop index previousWasExponentMarker)

/-- The end of the character at an offset, or the offset at the end of the text. -/
def characterEnd (start : Nat) : Option Nat :=
  (firstCharacter text start).map fun character =>
    match character with
    | some character => start + character.utf8Size
    | none => start

def invalidNumericLikeEnd (start : Nat) : Option Nat := do
  let (index, _) ← scanFrom (utf8Bytes text) (invalidNumericTurn text) start false
  if index = start then characterEnd text start else some index

def makeInvalidNumericToken (start : Nat) : Option SyntaxToken := do
  let «end» ← invalidNumericLikeEnd text start
  some (.new .invalidToken ⟨start, «end»⟩)

def scanNumber (start : Nat) : Option NumericScan :=
  if hasRadixPrefix text start 'b' 'B' then
    scanRadixInteger text start .binaryIntegerLiteralToken isBinaryDigit
  else if hasRadixPrefix text start 'x' 'X' then
    scanRadixInteger text start .hexadecimalIntegerLiteralToken isAsciiHexdigit
  else scanDecimalNumeric text start

/-- The imaginary suffix makes another kind of number. -/
def withImaginarySuffix (scan : NumericScan) : NumericScan :=
  if byteAt text scan.endIndex = some (byteOf 'i') then ⟨.imaginaryLiteralToken, scan.endIndex + 1, scan.valid⟩
  else scan

def scanNumericLiteral (start : Nat) : Option SyntaxToken := do
  let scan ← scanNumber text start
  if !scan.valid then makeInvalidNumericToken text start
  else if (byteAt text (withImaginarySuffix text scan).endIndex).any isNumericSuffixByte then
    if (withImaginarySuffix text scan).endIndex = scan.endIndex ∧ (byteAt text scan.endIndex).any isAsciiDigit then
      makeInvalidNumericToken text start
    else
      -- the error names the character at the suffix
      (firstCharacter text (withImaginarySuffix text scan).endIndex).bind fun _ =>
        makeInvalidNumericToken text start
  else some (.new (withImaginarySuffix text scan).kind ⟨start, (withImaginarySuffix text scan).endIndex⟩)

def decimalDigitsTurn (index : Nat) (byte : UInt8) (_ : Unit) : Option (Turn Unit) :=
  some (if isAsciiDigit byte then .next (index + 1) () else .stop index ())

def tupleIndexTextIsValid (startIndex endIndex : Nat) : Bool :=
  endIndex = startIndex + 1 || (byteAt text startIndex).any fun byte => isAsciiDigit byte && byte ≠ byteOf '0'

def scanTupleElementIndexToken (start : Nat) : Option SyntaxToken := do
  let (endIndex, _) ← scanFrom (utf8Bytes text) decimalDigitsTurn start ()
  if !tupleIndexTextIsValid text start endIndex || (byteAt text endIndex).any isNumericSuffixByte then
    makeInvalidNumericToken text start
  else some (.new .tupleElementIndexToken ⟨start, endIndex⟩)

/-! ## 3. Strings and characters -/

inductive EscapeMode where
  | character
  | string
  | byteString
  deriving DecidableEq

inductive EscapeScan where
  | valid (endIndex : Nat)
  | invalid

def hexDigitValue (byte : UInt8) : Option Nat :=
  if isAsciiDigit byte then some (byte.toNat - (byteOf '0').toNat)
  else if byteOf 'a' ≤ byte ∧ byte ≤ byteOf 'f' then some (byte.toNat - (byteOf 'a').toNat + 10)
  else if byteOf 'A' ≤ byte ∧ byte ≤ byteOf 'F' then some (byte.toNat - (byteOf 'A').toNat + 10)
  else none

/-- A turn over the digits of a Unicode escape, with their value so far; none is an error. -/
def unicodeTurn (digitsStart index : Nat) (byte : UInt8) (value : Option Nat) : Option (Turn (Option Nat)) :=
  if byte = byteOf '\x7d' then some (.stop index value)
  else if index - digitsStart = 6 then some (.stop index none)
  else
    match hexDigitValue byte, value with
    | some digit, some value =>
      some (if value * 16 + digit < 2 ^ 32 then .next (index + 1) (some (value * 16 + digit)) else .stop index none)
    | _, _ => some (.stop index none)

def scanUnicodeEscape (backslashIndex : Nat) : Option EscapeScan :=
  if byteAt text (backslashIndex + 2) ≠ some (byteOf '\x7b') then some .invalid
  else
    (scanFrom (utf8Bytes text) (unicodeTurn (backslashIndex + 3)) (backslashIndex + 3) (some 0)).map fun scan =>
      match scan.2 with
      | none => .invalid
      | some value =>
        if scan.1 = backslashIndex + 3 ∨ byteAt text scan.1 ≠ some (byteOf '\x7d') then .invalid
        else if value.isValidChar then .valid (scan.1 + 1)
        else .invalid

/-- The characters that every escape may name. -/
def isSimpleEscape (byte : UInt8) : Bool :=
  byte = byteOf '"' || byte = byteOf '\\' || byte = byteOf 'n' || byte = byteOf 'r' || byte = byteOf 't' ||
    byte = byteOf '0'

def scanEscapeSequence (backslashIndex : Nat) (mode : EscapeMode) : Option EscapeScan :=
  match byteAt text (backslashIndex + 1) with
  | none => some .invalid
  | some byte =>
    if isSimpleEscape byte then some (.valid (backslashIndex + 2))
    else if byte = byteOf '\'' ∧ mode = .character then some (.valid (backslashIndex + 2))
    else if byte = byteOf 'x' ∧ mode = .byteString then
      some (if (byteAt text (backslashIndex + 2)).any isAsciiHexdigit ∧
        (byteAt text (backslashIndex + 3)).any isAsciiHexdigit then .valid (backslashIndex + 4) else .invalid)
    else if byte = byteOf 'u' then scanUnicodeEscape text backslashIndex
    else if byte = byteOf '\n' ∨ byte = byteOf '\r' then some .invalid
    -- the error names the character behind the backslash
    else (firstCharacter text (backslashIndex + 1)).map fun _ => .invalid

def recoveryTurn (quote : Char) (index : Nat) (byte : UInt8) (_ : Unit) : Option (Turn Unit) :=
  if byte = byteOf '\n' ∨ byte = byteOf '\r' then some (.stop index ())
  else if byte = byteOf quote then some (.stop (index + 1) ())
  else if byte = byteOf '\\' then
    some (.next (match characterLenAt text (index + 1) with
      | some len => index + 1 + len
      | none => index + 1) ())
  else
    some (match characterLenAt text index with
      | some len => .next (index + len) ()
      | none => .stop index ())

/-- Where the body of a quoted literal begins. -/
def bodyStart (start : Nat) (quote : Char) : Nat :=
  if quote = '"' ∧ byteAt text start = some (byteOf 'b') then start + 2 else start + 1

def quotedLiteralRecoveryEnd (start : Nat) (quote : Char) : Option Nat :=
  (scanFrom (utf8Bytes text) (recoveryTurn text quote) (bodyStart text start quote) ()).map Prod.fst

def makeInvalidQuotedToken (start : Nat) (quote : Char) : Option SyntaxToken := do
  let «end» ← quotedLiteralRecoveryEnd text start quote
  some (.new .invalidToken ⟨start, «end»⟩)

inductive StringScan where
  | running
  | closed
  | invalid

def stringTurn (mode : EscapeMode) (index : Nat) (byte : UInt8) (_ : StringScan) : Option (Turn StringScan) :=
  if byte = byteOf '"' then some (.stop (index + 1) .closed)
  else if byte = byteOf '\n' ∨ byte = byteOf '\r' then some (.stop index .invalid)
  else if byte = byteOf '\\' then
    (scanEscapeSequence text index mode).map fun escape =>
      match escape with
      | .valid endIndex => .next endIndex .running
      | .invalid => .stop index .invalid
  else if isAscii byte then some (.next (index + 1) .running)
  else
    some (match characterLenAt text index with
      | some len => .next (index + len) .running
      | none => .stop index .invalid)

def scanStringLiteral (start : Nat) (byteString : Bool) : Option SyntaxToken := do
  let (index, scan) ← scanFrom (utf8Bytes text) (stringTurn text (if byteString then .byteString else .string))
    (start + 1 + byteString.toNat) .running
  match scan with
  | .closed =>
    some (.new (if byteString then .byteStringLiteralToken else .stringLiteralToken) ⟨start, index⟩)
  | _ => makeInvalidQuotedToken text start '"'

/-- The end of the body of a character literal; none when it is invalid. -/
def scanCharacterLiteralBody (index : Nat) : Option (Option Nat) :=
  match byteAt text index with
  | none => some none
  | some byte =>
    if byte = byteOf '\\' then
      (scanEscapeSequence text index .character).map fun escape =>
        match escape with
        | .valid endIndex => some endIndex
        | .invalid => none
    else if byte = byteOf '\'' then some none
    else if byte = byteOf '\n' ∨ byte = byteOf '\r' then some none
    else if isAscii byte then some (some (index + 1))
    else some ((characterLenAt text index).map (index + ·))

def scanCharacterLiteral (start : Nat) : Option SyntaxToken := do
  match ← scanCharacterLiteralBody text (start + 1) with
  | none => makeInvalidQuotedToken text start '\''
  | some body =>
    if byteAt text body = some (byteOf '\'') then some (.new .characterLiteralToken ⟨start, body + 1⟩)
    else makeInvalidQuotedToken text start '\''

end Bray.Lexer
