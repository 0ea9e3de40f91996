/-
  File:      Bray/Lexer/Data.lean
  Subject:   TOKENS: kinds, ranges, trivia (bray-syntax), and reading a source text at byte offsets.

  A kind of a fixed spelling is named by that spelling. Reading the text off a character boundary is a panic:
  functions that may read so yield an option.
-/
import Bray.Lib.Check
import Bray.Lib.Utf8

namespace Bray.Lexer

open Lib

/-! ## 1. Kinds -/

inductive SyntaxKind where
  /-- A keyword, an operator, a delimiter or a separator. -/
  | fixed (text : List Char)
  | identifierToken
  | decimalIntegerLiteralToken
  | binaryIntegerLiteralToken
  | hexadecimalIntegerLiteralToken
  | realLiteralToken
  | imaginaryLiteralToken
  | characterLiteralToken
  | stringLiteralToken
  | byteStringLiteralToken
  | tupleElementIndexToken
  | invalidToken
  | endOfFileToken
  | whitespaceTrivia
  | lineCommentTrivia
  | documentationLineCommentTrivia
  | blockCommentTrivia
  | documentationBlockCommentTrivia
  deriving DecidableEq

def keywordTexts : List String :=
  ["all", "any", "as", "assert", "async", "await", "box", "break", "callable", "case", "catch", "const",
    "construct", "consume", "continue", "destruct", "each", "else", "ensures", "executes", "enter", "exit",
    "export", "extern", "false", "finalize", "for", "func", "if", "impl", "in", "internal", "lambda", "let",
    "loop", "match", "matches", "module", "move", "mut", "none", "overload", "panic", "pos", "predicate",
    "public", "requires", "return", "self", "Self", "static", "struct", "trait", "trusted", "true", "try",
    "type", "union", "unit", "using", "uses", "view", "when", "while", "with", "yield"]

def punctuationTexts : List String :=
  ["->", "==", "!=", "<=", ">=", "&&", "||", "<<", ">>", "**", "+=", "-=", "*=", "/=", "%=", "@=", "&=", "|=",
    "^=", "<<=", ">>=", "**=", "...", "..", ":", ".", "?", "=", "+", "-", "*", "/", "%", "@", "&", "|", "^",
    "~", "!", "<", ">", "(", ")", "\x7b", "\x7d", "[", "]", ",", ";", "_"]

def SyntaxKind.fromFixedText (text : List Char) : Option SyntaxKind :=
  if String.ofList text ∈ keywordTexts ++ punctuationTexts then some (.fixed text) else none

def SyntaxKind.isKeyword : SyntaxKind → Bool
  | .fixed text => String.ofList text ∈ keywordTexts
  | _ => false

/-! ## 2. Tokens -/

structure TextRange where
  start : Nat
  «end» : Nat
  deriving DecidableEq

namespace TextRange

def empty (offset : Nat) : TextRange := ⟨offset, offset⟩

/-- The smallest range that covers both. -/
def cover (first second : TextRange) : TextRange := ⟨min first.start second.start, max first.end second.end⟩

end TextRange

structure SyntaxTrivia where
  kind : SyntaxKind
  range : TextRange
  deriving DecidableEq

structure SyntaxToken where
  kind : SyntaxKind
  range : TextRange
  leadingTrivia : List SyntaxTrivia
  trailingTrivia : List SyntaxTrivia
  deriving DecidableEq

namespace SyntaxToken

def new (kind : SyntaxKind) (range : TextRange) : SyntaxToken := ⟨kind, range, [], []⟩

def endOfFile (offset : Nat) : SyntaxToken := new .endOfFileToken (.empty offset)

def isEndOfFile (token : SyntaxToken) : Bool := token.kind = .endOfFileToken

def withLeadingTrivia (token : SyntaxToken) (trivia : List SyntaxTrivia) : SyntaxToken :=
  { token with leadingTrivia := trivia }

def withTrailingTrivia (token : SyntaxToken) (trivia : List SyntaxTrivia) : SyntaxToken :=
  { token with trailingTrivia := trivia }

def withLeading (token : SyntaxToken) : TextRange :=
  match token.leadingTrivia.head? with
  | some first => first.range.cover token.range
  | none => token.range

def fullRange (token : SyntaxToken) : TextRange :=
  match token.trailingTrivia.getLast? with
  | some last => token.withLeading.cover last.range
  | none => token.withLeading

end SyntaxToken

/-! ## 3. Reading the text -/

/-- The character at an offset; a panic off a boundary. -/
def firstCharacter (text : List Char) (start : Nat) : Option (Option Char) :=
  (suffixFrom text start).map List.head?

def characterLenAt (text : List Char) (index : Nat) : Option Nat :=
  ((suffixFrom text index).bind List.head?).map Char.utf8Size

/-- The text of a range; a panic when an end is off a boundary. -/
def tokenText (text : List Char) (range : TextRange) : Option (List Char) := do
  let fromStart ← suffixFrom text range.start
  let fromEnd ← suffixFrom text range.end
  some (fromStart.take (fromStart.length - fromEnd.length))

def startsWith (text : List Char) (start : Nat) (expected : List Char) : Option Bool :=
  (suffixFrom text start).map fun rest => expected.isPrefixOf rest

end Bray.Lexer
