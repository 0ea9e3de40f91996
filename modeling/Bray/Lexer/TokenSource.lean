/-
  File:      Bray/Lexer/TokenSource.lean
  Subject:   THE TOKEN SOURCE (lexer/token_source.rs): tokens on demand, with a cache of the tokens produced for
    lookahead or without one.

  The scanner of the snapshot is a parameter here; yielding nothing is a panic.
-/
import Bray.Lexer.Scanner

namespace Bray.Lexer

inductive LexerCachePolicy where
  | cacheTokens
  | doNotCacheTokens
  deriving DecidableEq

structure LexerTokenSource where
  cursor : Nat
  cachePolicy : LexerCachePolicy
  cachedTokens : List SyntaxToken
  deriving DecidableEq

def LexerTokenSource.withCachePolicy (policy : LexerCachePolicy) : LexerTokenSource := ⟨0, policy, []⟩

/-- The scanner of a snapshot. -/
abbrev Scan := Nat → LexerScanMode → Option SyntaxToken

variable (scan : Scan)

def fillWithEof (tokens : List SyntaxToken) (missing offset : Nat) : List SyntaxToken :=
  tokens ++ List.replicate missing (.endOfFile offset)

/-- Where the token behind the cached ones begins. -/
def nextOffset (cursor : Nat) (tokens : List SyntaxToken) : Nat :=
  match tokens.getLast? with
  | some token => token.fullRange.end
  | none => cursor

/-- The cache with so many tokens more. -/
def cacheMore (cursor : Nat) : Nat → List SyntaxToken → Option (List SyntaxToken)
  | 0, tokens => some tokens
  | missing + 1, tokens =>
    match tokens.getLast?.filter SyntaxToken.isEndOfFile with
    | some eof => some (fillWithEof tokens (missing + 1) eof.range.start)
    | none => do
      let token ← scan (nextOffset cursor tokens) .normal
      cacheMore cursor missing (tokens ++ [token])

def ensureCached (source : LexerTokenSource) (distance : Nat) : Option LexerTokenSource := do
  let tokens ← cacheMore scan source.cursor (distance + 1 - source.cachedTokens.length) source.cachedTokens
  some { source with cachedTokens := tokens }

/-- The token at a distance from a token on, scanned again. -/
def lookaheadFrom : Nat → SyntaxToken → Option SyntaxToken
  | 0, token => some token
  | distance + 1, token =>
    if token.isEndOfFile then some token
    else do
      let token ← scan token.fullRange.end .normal
      lookaheadFrom distance token

def uncachedLookahead (source : LexerTokenSource) (distance : Nat) : Option SyntaxToken := do
  let token ← scan source.cursor .normal
  lookaheadFrom scan distance token

def uncachedWindow : Nat → Nat → Option (List SyntaxToken)
  | 0, _ => some []
  | len + 1, offset => do
    let token ← scan offset .normal
    if token.isEndOfFile then some (fillWithEof [token] len token.fullRange.end)
    else do
      let tokens ← uncachedWindow len token.fullRange.end
      some (token :: tokens)

namespace LexerTokenSource

def lookahead (source : LexerTokenSource) (distance : Nat) : Option (SyntaxToken × LexerTokenSource) :=
  match source.cachePolicy with
  | .cacheTokens => do
    let source ← ensureCached scan source distance
    let token ← source.cachedTokens[distance]?
    some (token, source)
  | .doNotCacheTokens => (uncachedLookahead scan source distance).map fun token => (token, source)

def peek (source : LexerTokenSource) : Option (SyntaxToken × LexerTokenSource) := source.lookahead scan 0

def lookaheadWindow (source : LexerTokenSource) (len : Nat) : Option (List SyntaxToken × LexerTokenSource) :=
  if len = 0 then some ([], source)
  else
    match source.cachePolicy with
    | .cacheTokens => do
      let source ← ensureCached scan source (len - 1)
      some (source.cachedTokens.take len, source)
    | .doNotCacheTokens => (uncachedWindow scan len source.cursor).map fun tokens => (tokens, source)

def advanceAfterConsuming (source : LexerTokenSource) (token : SyntaxToken) : LexerTokenSource :=
  if token.isEndOfFile then { source with cursor := token.fullRange.end }
  else
    { source with
      cursor := token.fullRange.end
      cachedTokens :=
        if source.cachePolicy = .cacheTokens then source.cachedTokens.drop 1 else source.cachedTokens }

def consume (source : LexerTokenSource) : Option (SyntaxToken × LexerTokenSource) := do
  let (token, source) ← source.lookahead scan 0
  some (token, source.advanceAfterConsuming token)

def consumeWithMode (source : LexerTokenSource) (mode : LexerScanMode) : Option (SyntaxToken × LexerTokenSource) := do
  let token ← scan source.cursor mode
  some (token, { source with cachedTokens := [], cursor := token.fullRange.end })

end LexerTokenSource

/-! ## Runs -/

inductive Operation where
  | peek
  | lookahead (distance : Nat)
  | lookaheadWindow (len : Nat)
  | consume
  | consumeTupleElementIndexAfterDot
  | consumeTypePunctuation

def Operation.consumes : Operation → Bool
  | .consume | .consumeTupleElementIndexAfterDot | .consumeTypePunctuation => true
  | _ => false

/-- An operation: the tokens that it returns and the source after it. -/
def perform (source : LexerTokenSource) : Operation → Option (List SyntaxToken × LexerTokenSource)
  | .peek => (source.peek scan).map fun (token, source) => ([token], source)
  | .lookahead distance => (source.lookahead scan distance).map fun (token, source) => ([token], source)
  | .lookaheadWindow len => source.lookaheadWindow scan len
  | .consume => (source.consume scan).map fun (token, source) => ([token], source)
  | .consumeTupleElementIndexAfterDot =>
    (source.consumeWithMode scan .tupleElementIndexAfterDot).map fun (token, source) => ([token], source)
  | .consumeTypePunctuation =>
    (source.consumeWithMode scan .typePunctuation).map fun (token, source) => ([token], source)

/-- Operations one after the other: what each returns, and the source at the end. -/
def performAll (source : LexerTokenSource) : List Operation → Option (List (List SyntaxToken) × LexerTokenSource)
  | [] => some ([], source)
  | operation :: operations => do
    let (tokens, source) ← perform scan source operation
    let (later, source) ← performAll source operations
    some (tokens :: later, source)

/-- The tokens that a run consumes, in order. -/
def consumed (operations : List Operation) (returned : List (List SyntaxToken)) : List SyntaxToken :=
  ((operations.zip returned).filter fun entry => entry.1.consumes).flatMap Prod.snd

end Bray.Lexer
