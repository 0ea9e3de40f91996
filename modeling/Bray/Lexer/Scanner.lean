/-
  File:      Bray/Lexer/Scanner.lean
  Subject:   THE SCANNER (lexer/scanner.rs): the token at an offset, with its trivia, in one of three modes.

  Which characters outside of ASCII are alphanumeric is a parameter.
-/
import Bray.Lexer.Literal

namespace Bray.Lexer

open Lib

variable (alphanumeric : Char → Bool) (text : List Char)

inductive LexerScanMode where
  | normal
  | typePunctuation
  | tupleElementIndexAfterDot

/-! ## 1. Identifiers -/

def isNonAsciiIdentifierCharacter (character : Char) : Bool := 128 ≤ character.toNat && alphanumeric character

def continuesInvalidIdentifier (character : Char) : Bool :=
  if character.toNat < 128 then character.isAlphanum || character = '_'
  else isNonAsciiIdentifierCharacter alphanumeric character

def invalidIdentifierLikeEnd (start : Nat) : Option Nat := do
  let rest ← suffixFrom text start
  if (rest.takeWhile (continuesInvalidIdentifier alphanumeric)).isEmpty then characterEnd text start
  else some (start + utf8Len (rest.takeWhile (continuesInvalidIdentifier alphanumeric)))

def isAsciiIdentifierContinue (byte : UInt8) : Bool := isAsciiAlphanumeric byte || byte = byteOf '_'

def identifierTurn (index : Nat) (byte : UInt8) (_ : Unit) : Option (Turn Unit) :=
  some (if isAsciiIdentifierContinue byte then .next (index + 1) () else .stop index ())

inductive IdentifierScanEnd where
  | valid (end_ : Nat)
  | invalid (end_ : Nat)

def identifierLikeEnd (start : Nat) : Option IdentifierScanEnd := do
  let (index, _) ← scanFrom (utf8Bytes text) identifierTurn start ()
  let character ← firstCharacter text index
  if character.any (isNonAsciiIdentifierCharacter alphanumeric) then
    (invalidIdentifierLikeEnd alphanumeric text start).map .invalid
  else some (.valid index)

def keywordKind (spelling : List Char) : Option SyntaxKind :=
  (SyntaxKind.fromFixedText spelling).filter SyntaxKind.isKeyword

def scanIdentifierOrKeyword (start : Nat) : Option SyntaxToken := do
  match ← identifierLikeEnd alphanumeric text start with
  | .valid «end» =>
    (tokenText text ⟨start, «end»⟩).map fun spelling =>
      .new ((keywordKind spelling).getD .identifierToken) ⟨start, «end»⟩
  | .invalid «end» => some (.new .invalidToken ⟨start, «end»⟩)

def scanUnderscoreOrInvalidIdentifier (start : Nat) : Option SyntaxToken := do
  let character ← firstCharacter text (start + 1)
  if character.any fun character => (character.isAlphanum || character = '_') ||
    isNonAsciiIdentifierCharacter alphanumeric character then
    (invalidIdentifierLikeEnd alphanumeric text start).map fun «end» => .new .invalidToken ⟨start, «end»⟩
  else some (.new (.fixed ['_']) ⟨start, start + 1⟩)

/-! ## 2. Operators -/

def clusterCharacters : List Char :=
  ['-', '=', '!', '<', '>', '&', '|', '*', '.', '+', '/', '%', '@', '^', '~', '?', ':']

def isOperatorClusterByte (byte : UInt8) : Bool := byte ∈ clusterCharacters.map byteOf

def operatorTurn (start index : Nat) (byte : UInt8) (_ : Unit) : Option (Turn Unit) :=
  some (if (byte = byteOf '.' ∨ byte = byteOf ':') ∧ start < index ∧ byteAt text (index - 1) = some (byteOf '>') then
    .stop index ()
    else if isOperatorClusterByte byte then .next (index + 1) ()
    else .stop index ())

def operatorClusterEnd (start : Nat) : Option Nat :=
  (scanFrom (utf8Bytes text) (operatorTurn text start) start ()).map Prod.fst

/-- Three of the same character: the type grammar may take them one by one. -/
def isRepeated (start : Nat) (character : Char) : Bool :=
  byteAt text start = some (byteOf character) && byteAt text (start + 1) = some (byteOf character) &&
    byteAt text (start + 2) = some (byteOf character)

def scanOperatorOrPunctuationToken (start : Nat) : Option SyntaxToken :=
  if isRepeated text start '&' then some (.new (.fixed ['&', '&']) ⟨start, start + 2⟩)
  else if isRepeated text start '>' then some (.new (.fixed ['>', '>']) ⟨start, start + 2⟩)
  else do
    let «end» ← operatorClusterEnd text start
    (tokenText text ⟨start, «end»⟩).map fun spelling =>
      .new ((SyntaxKind.fromFixedText spelling).getD .invalidToken) ⟨start, «end»⟩

/-! ## 3. Tokens -/

def delimiterCharacters : List Char := ['(', ')', '\x7b', '\x7d', '[', ']', ',', ';']

def makeScalarToken (kind : SyntaxKind) (start : Nat) (character : Char) : SyntaxToken :=
  .new kind ⟨start, start + character.utf8Size⟩

def scanInvalidScalarToken (start : Nat) : Option SyntaxToken :=
  (firstCharacter text start).map fun character =>
    match character with
    | some character => makeScalarToken .invalidToken start character
    | none => .endOfFile start

def scanNormalToken (start : Nat) : Option SyntaxToken := do
  match ← firstCharacter text start with
  | none => some (.endOfFile start)
  | some character =>
    if character.isAlpha then
      if character = 'b' ∧ byteAt text (start + 1) = some (byteOf '"') then scanStringLiteral text start true
      else scanIdentifierOrKeyword alphanumeric text start
    else if character = '_' then scanUnderscoreOrInvalidIdentifier alphanumeric text start
    else if character.isDigit then scanNumericLiteral text start
    else if character = '\'' then scanCharacterLiteral text start
    else if character = '"' then scanStringLiteral text start false
    else if character ∈ delimiterCharacters then some (makeScalarToken (.fixed [character]) start character)
    else if character ∈ clusterCharacters then scanOperatorOrPunctuationToken text start
    else if isNonAsciiIdentifierCharacter alphanumeric character then
      (invalidIdentifierLikeEnd alphanumeric text start).map fun «end» => .new .invalidToken ⟨start, «end»⟩
    else scanInvalidScalarToken text start

def scanTupleElementIndexOrNormal (start : Nat) : Option SyntaxToken := do
  match ← firstCharacter text start with
  | none => some (.endOfFile start)
  | some character =>
    if character.isDigit then scanTupleElementIndexToken text start
    else scanNormalToken alphanumeric text start

def scanTokenCore (start : Nat) (mode : LexerScanMode) : Option SyntaxToken :=
  match mode with
  | .normal => scanNormalToken alphanumeric text start
  | .typePunctuation => do
    match ← firstCharacter text start with
    | some '>' => some (makeScalarToken (.fixed ['>']) start '>')
    | some '&' => some (makeScalarToken (.fixed ['&']) start '&')
    | _ => scanNormalToken alphanumeric text start
  | .tupleElementIndexAfterDot => scanTupleElementIndexOrNormal alphanumeric text start

/-- Trailing trivia that reaches the end of the text belongs to the end of file. -/
def withTrailing (token : SyntaxToken) (trailing : TriviaScan) : SyntaxToken :=
  if trailing.reachedEof then token else token.withTrailingTrivia trailing.trivia

/-- **The token at an offset**; none is a panic. -/
def scanTokenAt (start : Nat) (mode : LexerScanMode) : Option SyntaxToken := do
  if textLen text < start then none
  else
    let leading ← scanLeadingTrivia text start
    if leading.end = textLen text then some ((SyntaxToken.endOfFile leading.end).withLeadingTrivia leading.trivia)
    else
      let token ← scanTokenCore alphanumeric text leading.end mode
      let trailing ← scanTrailingTrivia text token.range.end
      some (withTrailing (token.withLeadingTrivia leading.trivia) trailing)

end Bray.Lexer
