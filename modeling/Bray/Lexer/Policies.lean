/-
  File:      Bray/Lexer/Policies.lean
  Subject:   THE TWO CACHE POLICIES COMPARED: one run of operations on a source that caches and on one that scans
    again.

  The two stand at the same offset throughout (`Alike`). They differ over one token only, the end of file with
  trivia in front of it: looking past it, the scanner without a cache stops at it, where the cache holds an end
  of file without trivia (`looksPast`); once it is consumed, the cache shows it again (`stale`).
-/
import Bray.Lexer.Lossless

namespace Bray.Lexer

open Lib List

/-! ## 1. Where the policies part -/

/-- The end of file is nearer than a distance, and it carries trivia. -/
def looksPast (scan : Scan) : Nat → Nat → Bool
  | _, 0 => false
  | cursor, distance + 1 =>
    match scan cursor .normal with
    | none => false
    | some token =>
      if token.isEndOfFile then !token.leadingTrivia.isEmpty else looksPast scan token.fullRange.end distance

/-- The first token of the cache is the end of file with its trivia, and the cursor is behind it. -/
def stale (source : LexerTokenSource) : Bool :=
  match source.cachedTokens.head? with
  | none => false
  | some token =>
    token.isEndOfFile && !token.leadingTrivia.isEmpty && decide (source.cursor = token.fullRange.end)

/-- An operation on a source that caches returns what scanning again does not. -/
def diverges (scan : Scan) (source : LexerTokenSource) : Operation → Bool
  | .peek | .consume => stale source
  | .lookahead distance => (distance = 0 && stale source) || looksPast scan source.cursor distance
  | .lookaheadWindow len => len ≠ 0 && stale source
  | .consumeTupleElementIndexAfterDot | .consumeTypePunctuation => false

/-- No operation of a run starts where it diverges. -/
def NeverDiverges (scan : Scan) : LexerTokenSource → List Operation → Prop
  | _, [] => True
  | source, operation :: operations =>
    diverges scan source operation = false ∧
      ∀ tokens source', perform scan source operation = some (tokens, source') →
        NeverDiverges scan source' operations

variable {alphanumeric : Char → Bool} {text : List Char} {cursor : Nat} {tokens : List SyntaxToken}

/-! ## 2. The cache against the scanner -/

/-- An end of file is told from the one without trivia by its trivia. -/
theorem eof_eq_bareEof {token : SyntaxToken} (covers : Covers text cursor token) (isEof : token.isEndOfFile = true) :
    token = bareEof text ↔ token.leadingTrivia.isEmpty = true := by
  obtain ⟨range, trailing⟩ := covers.eof isEof
  have kind : token.kind = .endOfFileToken := of_decide_eq_true isEof
  constructor
  · rintro rfl
    rfl
  · intro bare
    cases token
    cases kind
    cases range
    cases trailing
    cases isEmpty_iff.mp bare
    rfl

/-- The token of the cache at a distance and the one that scanning again comes to. -/
theorem lookahead_agrees {distance : Nat} {shown : SyntaxToken}
    (boundary : OnBoundary text cursor) (ahead : Ahead alphanumeric text cursor tokens)
    (cached : tokens[distance]? = some shown) : ∃ token, (do
       let token ← scanTokenAt alphanumeric text cursor .normal
       lookaheadFrom (scanTokenAt alphanumeric text) distance token) = some token ∧
      (shown = token ↔ looksPast (scanTokenAt alphanumeric text) cursor distance = false) := by
  induction distance generalizing cursor tokens with
  | zero =>
    cases tokens with
    | nil => cases cached
    | cons first tokens =>
      cases cached
      exact ⟨shown, by rw [ahead.1]; rfl, by simp [looksPast]⟩
  | succ distance ih =>
    cases tokens with
    | nil => cases cached
    | cons first tokens =>
      obtain ⟨here, rest⟩ := ahead
      have covers := scanned_covers boundary here
      rw [getElem?_cons_succ] at cached
      simp only [here, some_bind, lookaheadFrom, looksPast]
      by_cases isEof : first.isEndOfFile = true
      · -- the cache goes on with ends of file, the scanner stays at this one
        rw [if_pos isEof] at rest
        have shown_eq : shown = bareEof text :=
          eq_of_mem_replicate (rest ▸ mem_of_getElem? cached)
        simp only [if_pos isEof]
        refine ⟨first, rfl, ?_⟩
        rw [shown_eq, eq_comm, eof_eq_bareEof covers isEof]
        simp
      · rw [if_neg isEof] at rest
        simp only [if_neg isEof]
        exact ih covers.ends rest cached

/-- Windows of the cache are what scanning again collects. -/
theorem window_agrees {len : Nat} (boundary : OnBoundary text cursor) (ahead : Ahead alphanumeric text cursor tokens)
    (long : len ≤ tokens.length) :
    uncachedWindow (scanTokenAt alphanumeric text) len cursor = some (tokens.take len) := by
  induction len generalizing cursor tokens with
  | zero => rfl
  | succ len ih =>
    cases tokens with
    | nil => cases long
    | cons first tokens =>
      obtain ⟨here, rest⟩ := ahead
      have covers := scanned_covers boundary here
      have long' : len ≤ tokens.length := Nat.le_of_succ_le_succ long
      simp only [uncachedWindow, here, some_bind, take_succ_cons]
      by_cases isEof : first.isEndOfFile = true
      · rw [if_pos isEof] at rest ⊢
        rw [rest, take_replicate, Nat.min_eq_left long', (covers.eof_end isEof).1]
        rfl
      · rw [if_neg isEof] at rest ⊢
        rw [ih covers.ends rest long']
        rfl

/-! ## 3. The two sources side by side -/

/-- The consumed end of file with its trivia is the first token of the cache still. -/
structure Held (text : List Char) (source : LexerTokenSource) : Prop where
  cursor : source.cursor = textLen text
  tokens : ∃ eof others, source.cachedTokens = eof :: List.replicate others (bareEof text) ∧
    eof.isEndOfFile = true ∧ eof.leadingTrivia.isEmpty = false ∧ eof.range.start = textLen text ∧
    eof.fullRange.end = textLen text

/-- **A source that caches beside one that does not**: at the same offset, with the tokens ahead in the cache
or with the end of file that was consumed. -/
structure Alike (alphanumeric : Char → Bool) (text : List Char) (cached uncached : LexerTokenSource) : Prop where
  cursor : uncached.cursor = cached.cursor
  caches : cached.cachePolicy = .cacheTokens
  rescans : uncached.cachePolicy = .doNotCacheTokens
  boundary : OnBoundary text cached.cursor
  holds : Ahead alphanumeric text cached.cursor cached.cachedTokens ∨ Held text cached

variable {cached uncached : LexerTokenSource}

variable {source : LexerTokenSource}

theorem stale_of_ahead (boundary : OnBoundary text source.cursor)
    (ahead : Ahead alphanumeric text source.cursor source.cachedTokens) : stale source = false := by
  unfold stale
  cases held : source.cachedTokens with
  | nil => rfl
  | cons first tokens =>
    rw [held] at ahead
    have covers := scanned_covers boundary ahead.1
    by_cases isEof : first.isEndOfFile = true
    · by_cases behind : source.cursor = first.fullRange.end
      · -- nothing is in front of the end of file at the end of the text
        rw [behind, (covers.eof_end isEof).1] at ahead
        obtain rfl : first = bareEof text := (List.cons.inj (ahead_end_iff.mp ahead)).1
        rfl
      · simp [behind]
    · simp [isEof]

theorem Held.stale (held : Held text source) : stale source = true := by
  obtain ⟨eof, others, tokens, isEof, trivia, _, full⟩ := held.tokens
  simp [Lexer.stale, tokens, isEof, trivia, held.cursor, full]

/-- Filling a cache that holds the consumed end of file adds ends of file. -/
theorem Held.cacheMore (held : Held text source) (missing : Nat) :
    cacheMore (scanTokenAt alphanumeric text) source.cursor missing source.cachedTokens =
      some (source.cachedTokens ++ List.replicate missing (bareEof text)) := by
  obtain ⟨eof, others, tokens, isEof, _, start, _⟩ := held.tokens
  cases missing with
  | zero => simp [Lexer.cacheMore]
  | succ missing =>
    have last : source.cachedTokens.getLast?.filter SyntaxToken.isEndOfFile =
      some (if others = 0 then eof else bareEof text) := by
      rw [tokens]
      cases others with
      | zero => simp [isEof]
      | succ others =>
        rw [getLast?_cons, getLast?_replicate]
        simp [bareEof_isEndOfFile]
    have at_ : (if others = 0 then eof else bareEof text).range.start = textLen text := by
      split
      · exact start
      · rfl
    simp only [Lexer.cacheMore, last, at_]
    rfl

theorem Held.grown (held : Held text source) (missing : Nat) :
    Held text { source with cachedTokens := source.cachedTokens ++ List.replicate missing (bareEof text) } := by
  obtain ⟨eof, others, tokens, rest⟩ := held.tokens
  exact ⟨held.cursor, eof, others + missing, by rw [tokens, cons_append, replicate_add], rest⟩

/-- **Filling the cache** keeps the sources alike. -/
theorem Alike.filled (alike : Alike alphanumeric text cached uncached) (distance : Nat) :
    ∃ more, ensureCached (scanTokenAt alphanumeric text) cached distance =
    some { cached with cachedTokens := cached.cachedTokens ++ more } ∧
    distance < (cached.cachedTokens ++ more).length ∧
    Alike alphanumeric text { cached with cachedTokens := cached.cachedTokens ++ more } uncached ∧
    (Ahead alphanumeric text cached.cursor cached.cachedTokens ∧
       Ahead alphanumeric text cached.cursor (cached.cachedTokens ++ more) ∨
      Held text cached ∧ ∃ missing, more = List.replicate missing (bareEof text)) := by
  have ⟨more, eq, length, holds⟩ : ∃ more,
    cacheMore (scanTokenAt alphanumeric text) cached.cursor (distance + 1 - cached.cachedTokens.length)
      cached.cachedTokens = some (cached.cachedTokens ++ more) ∧
      more.length = distance + 1 - cached.cachedTokens.length ∧
      (Ahead alphanumeric text cached.cursor cached.cachedTokens ∧
         Ahead alphanumeric text cached.cursor (cached.cachedTokens ++ more) ∨
        Held text cached ∧ ∃ missing, more = List.replicate missing (bareEof text)) := by
    rcases alike.holds with ahead | held
    · obtain ⟨more, eq, length, kept⟩ := cacheMore_ahead alike.boundary ahead _
      exact ⟨more, eq, length, .inl ⟨ahead, kept⟩⟩
    · exact ⟨_, held.cacheMore _, length_replicate, .inr ⟨held, _, rfl⟩⟩
  refine ⟨more, by rw [ensureCached, eq]; rfl, by rw [length_append]; omega, ?_, holds⟩
  refine ⟨alike.cursor, alike.caches, alike.rescans, alike.boundary, ?_⟩
  rcases holds with ⟨_, kept⟩ | ⟨held, missing, rfl⟩
  · exact .inl kept
  · exact .inr (held.grown missing)

/-! ## 4. Operations -/

/-- At the end of the text, scanning shows the end of file without trivia at every distance. -/
theorem lookahead_end (distance : Nat) : (do
    let token ← scanTokenAt alphanumeric text (textLen text) .normal
    lookaheadFrom (scanTokenAt alphanumeric text) distance token) = some (bareEof text) ∧
    looksPast (scanTokenAt alphanumeric text) (textLen text) distance = false := by
  have at_ : scanTokenAt alphanumeric text (textLen text) .normal = some (bareEof text) := scanTokenAt_end .normal
  cases distance with
  | zero => exact ⟨by rw [at_]; rfl, rfl⟩
  | succ distance =>
    refine ⟨?_, ?_⟩
    · simp [at_, some_bind, lookaheadFrom, if_pos bareEof_isEndOfFile]
    · simp only [looksPast, at_, if_pos bareEof_isEndOfFile]
      rfl

section

variable (alike : Alike alphanumeric text cached uncached)
include alike

/-- **Looking ahead** in both sources. -/
theorem Alike.lookahead (distance : Nat) :
    ∃ shown token source', cached.lookahead (scanTokenAt alphanumeric text) distance = some (shown, source') ∧
      uncached.lookahead (scanTokenAt alphanumeric text) distance = some (token, uncached) ∧
      source'.cachedTokens[distance]? = some shown ∧ source'.cursor = cached.cursor ∧
      Alike alphanumeric text source' uncached ∧
      (Ahead alphanumeric text source'.cursor source'.cachedTokens ∧ stale cached = false ∨
        Held text source' ∧ token = bareEof text) ∧
      (shown = token ↔ diverges (scanTokenAt alphanumeric text) cached (.lookahead distance) = false) := by
  obtain ⟨more, ensured, long, filled, holds⟩ := alike.filled distance
  obtain ⟨shown, at_⟩ : ∃ shown, (cached.cachedTokens ++ more)[distance]? = some shown :=
    ⟨_, getElem?_eq_getElem long⟩
  have shows : cached.lookahead (scanTokenAt alphanumeric text) distance =
    some (shown, { cached with cachedTokens := cached.cachedTokens ++ more }) := by
    simp [LexerTokenSource.lookahead, alike.caches, ensured, some_bind, at_]
  have scans : uncached.lookahead (scanTokenAt alphanumeric text) distance =
    (do
      let token ← scanTokenAt alphanumeric text cached.cursor .normal
      lookaheadFrom (scanTokenAt alphanumeric text) distance token).map fun token => (token, uncached) := by
    rw [LexerTokenSource.lookahead, alike.rescans, ← alike.cursor]
    rfl
  rcases holds with ⟨ahead, kept⟩ | ⟨held, missing, rfl⟩
  · obtain ⟨token, eq, agree⟩ := lookahead_agrees alike.boundary kept at_
    have fresh := stale_of_ahead alike.boundary ahead
    refine ⟨shown, token, _, shows, by rw [scans, eq]; rfl, at_, rfl, filled, .inl ⟨kept, fresh⟩, ?_⟩
    rw [agree, diverges, fresh, Bool.and_false, Bool.false_or]
  · obtain ⟨eq, far⟩ := @lookahead_end alphanumeric text distance
    refine ⟨shown, bareEof text, _, shows, by rw [scans, held.cursor, eq]; rfl, at_, rfl, filled,
      .inr ⟨held.grown missing, rfl⟩, ?_⟩
    rw [diverges, held.stale, held.cursor, far, Bool.and_true, Bool.or_false, decide_eq_false_iff_not]
    obtain ⟨eof, others, tokens, _, trivia, _⟩ := held.tokens
    rw [tokens, cons_append, replicate_append_replicate] at at_
    cases distance with
    | zero =>
      refine iff_of_false (fun same => ?_) (fun no => no rfl)
      rw [same] at at_
      obtain rfl := Option.some.inj at_
      cases trivia
    | succ distance =>
      exact iff_of_true (eq_of_mem_replicate (mem_of_getElem? at_)) (Nat.succ_ne_zero distance)

/-- **Windows** of both sources. -/
theorem Alike.window (len : Nat) : ∃ shown tokens source',
    cached.lookaheadWindow (scanTokenAt alphanumeric text) len = some (shown, source') ∧
    uncached.lookaheadWindow (scanTokenAt alphanumeric text) len = some (tokens, uncached) ∧
    Alike alphanumeric text source' uncached ∧
    (shown = tokens ↔ diverges (scanTokenAt alphanumeric text) cached (.lookaheadWindow len) = false) := by
  cases len with
  | zero => exact ⟨[], [], cached, rfl, rfl, alike, by simp [diverges]⟩
  | succ len =>
    obtain ⟨more, ensured, long, filled, holds⟩ := alike.filled len
    have shows : cached.lookaheadWindow (scanTokenAt alphanumeric text) (len + 1) =
      some ((cached.cachedTokens ++ more).take (len + 1),
        { cached with cachedTokens := cached.cachedTokens ++ more }) := by
      simp [LexerTokenSource.lookaheadWindow, alike.caches, ensured, some_bind]
    have scans : uncached.lookaheadWindow (scanTokenAt alphanumeric text) (len + 1) =
      (uncachedWindow (scanTokenAt alphanumeric text) (len + 1) cached.cursor).map
        fun tokens => (tokens, uncached) := by
      rw [LexerTokenSource.lookaheadWindow, if_neg (Nat.succ_ne_zero len), alike.rescans, ← alike.cursor]
    rcases holds with ⟨ahead, kept⟩ | ⟨held, missing, rfl⟩
    · refine ⟨_, _, _, shows, by rw [scans, window_agrees alike.boundary kept long]; rfl, filled, ?_⟩
      exact iff_of_true rfl (by rw [diverges, stale_of_ahead alike.boundary ahead, Bool.and_false])
    · have bare : Ahead alphanumeric text (textLen text) (List.replicate (len + 1) (bareEof text)) :=
        ahead_end_iff.mpr (by rw [length_replicate])
      have window : uncachedWindow (scanTokenAt alphanumeric text) (len + 1) (textLen text) = _ :=
        window_agrees (onBoundary_len text) bare (Nat.le_of_eq length_replicate.symm)
      refine ⟨_, _, _, shows, by rw [scans, held.cursor, window]; rfl, filled, ?_⟩
      obtain ⟨eof, others, tokens, _, trivia, _⟩ := held.tokens
      refine iff_of_false (fun same => ?_) (by simp [diverges, held.stale])
      rw [tokens, cons_append, take_succ_cons, replicate_succ, take_succ_cons] at same
      obtain rfl := (List.cons.inj same).1
      cases trivia

/-- **Consuming** from both sources. -/
theorem Alike.consume : ∃ shown token cached' uncached',
    cached.consume (scanTokenAt alphanumeric text) = some (shown, cached') ∧
    uncached.consume (scanTokenAt alphanumeric text) = some (token, uncached') ∧
    Alike alphanumeric text cached' uncached' ∧ (shown = token ↔ stale cached = false) := by
  obtain ⟨shown, token, source', shows, scans, at_, cursor, alike', holds, agree⟩ := alike.lookahead 0
  rw [diverges, looksPast, Bool.or_false, decide_eq_true rfl, Bool.true_and] at agree
  refine ⟨shown, token, source'.advanceAfterConsuming shown, uncached.advanceAfterConsuming token,
    by rw [LexerTokenSource.consume, shows]; rfl, by rw [LexerTokenSource.consume, scans]; rfl, ?_, agree⟩
  obtain ⟨rest, first⟩ : ∃ rest, source'.cachedTokens = shown :: rest := by
    cases tokens : source'.cachedTokens with
    | nil => rw [tokens] at at_; cases at_
    | cons other rest => rw [tokens] at at_; cases at_; exact ⟨rest, rfl⟩
  unfold LexerTokenSource.advanceAfterConsuming
  rcases holds with ⟨ahead, fresh⟩ | ⟨held, rfl⟩
  · obtain rfl := agree.mpr fresh
    rw [first] at ahead
    obtain ⟨scanned, behind⟩ := ahead
    have covers := scanned_covers alike'.boundary scanned
    by_cases isEof : shown.isEndOfFile = true
    · rw [if_pos isEof] at behind
      rw [if_pos isEof, if_pos isEof]
      obtain ⟨full, start⟩ := covers.eof_end isEof
      refine ⟨rfl, alike'.caches, alike'.rescans, covers.ends, ?_⟩
      by_cases bare : shown.leadingTrivia.isEmpty = true
      · obtain rfl := (eof_eq_bareEof covers isEof).mpr bare
        refine .inl (ahead_end_iff.mpr ?_)
        rw [first, length_cons, replicate_succ, ← behind]
      · refine .inr ⟨full, shown, rest.length, ?_, isEof, Bool.eq_false_iff.mpr bare, start, full⟩
        rw [← behind]
        exact first
    · rw [if_neg isEof] at behind
      rw [if_neg isEof, if_neg isEof]
      refine ⟨rfl, alike'.caches, alike'.rescans, covers.ends, .inl ?_⟩
      rw [if_pos alike'.caches, first]
      exact behind
  · obtain ⟨eof, others, tokens, isEof, trivia, start, full⟩ := held.tokens
    obtain rfl : shown = eof := (List.cons.inj (first.symm.trans tokens)).1
    rw [if_pos isEof, if_pos bareEof_isEndOfFile]
    refine ⟨full.symm, alike'.caches, alike'.rescans, ?_, .inr ⟨full, shown, others, tokens, isEof, trivia, start, full⟩⟩
    rw [full]
    exact onBoundary_len text

/-- A token scanned in a mode of its own is the same for both sources. -/
theorem Alike.consumeWithMode (mode : LexerScanMode) :
    ∃ token cached' uncached',
      cached.consumeWithMode (scanTokenAt alphanumeric text) mode = some (token, cached') ∧
      uncached.consumeWithMode (scanTokenAt alphanumeric text) mode = some (token, uncached') ∧
      Alike alphanumeric text cached' uncached' := by
  obtain ⟨token, scanned, covers⟩ := @scanTokenAt_covers alphanumeric _ _ alike.boundary mode
  exact ⟨token, { cached with cachedTokens := [], cursor := token.fullRange.end },
    { uncached with cachedTokens := [], cursor := token.fullRange.end },
    by rw [LexerTokenSource.consumeWithMode, scanned]; rfl,
    by rw [LexerTokenSource.consumeWithMode, alike.cursor, scanned]; rfl,
    rfl, alike.caches, alike.rescans, covers.ends, .inl trivial⟩

/-- **One operation on both sources**: the sources stay alike, and the tokens are the same but where the
operation diverges. -/
theorem Alike.perform (operation : Operation) :
    ∃ shown tokens cached' uncached',
      perform (scanTokenAt alphanumeric text) cached operation = some (shown, cached') ∧
      perform (scanTokenAt alphanumeric text) uncached operation = some (tokens, uncached') ∧
      Alike alphanumeric text cached' uncached' ∧
      (shown = tokens ↔ diverges (scanTokenAt alphanumeric text) cached operation = false) := by
  have single : ∀ first second : SyntaxToken, [first] = [second] ↔ first = second := by simp
  cases operation with
  | peek =>
    obtain ⟨shown, token, source', shows, scans, _, _, alike', _, agree⟩ := alike.lookahead 0
    refine ⟨[shown], [token], source', uncached, by rw [Lexer.perform, LexerTokenSource.peek, shows]; rfl,
      by rw [Lexer.perform, LexerTokenSource.peek, scans]; rfl, alike', ?_⟩
    rw [single, agree]
    simp [diverges, looksPast]
  | lookahead distance =>
    obtain ⟨shown, token, source', shows, scans, _, _, alike', _, agree⟩ := alike.lookahead distance
    exact ⟨[shown], [token], source', uncached, by rw [Lexer.perform, shows]; rfl,
      by rw [Lexer.perform, scans]; rfl, alike', by rw [single, agree]⟩
  | lookaheadWindow len =>
    obtain ⟨shown, tokens, source', shows, scans, alike', agree⟩ := alike.window len
    exact ⟨shown, tokens, source', uncached, shows, scans, alike', agree⟩
  | consume =>
    obtain ⟨shown, token, cached', uncached', shows, scans, alike', agree⟩ := alike.consume
    exact ⟨[shown], [token], cached', uncached', by rw [Lexer.perform, shows]; rfl,
      by rw [Lexer.perform, scans]; rfl, alike', by rw [single, agree, diverges]⟩
  | consumeTupleElementIndexAfterDot =>
    obtain ⟨token, cached', uncached', shows, scans, alike'⟩ := alike.consumeWithMode .tupleElementIndexAfterDot
    exact ⟨[token], [token], cached', uncached', by rw [Lexer.perform, shows]; rfl,
      by rw [Lexer.perform, scans]; rfl, alike', iff_of_true rfl rfl⟩
  | consumeTypePunctuation =>
    obtain ⟨token, cached', uncached', shows, scans, alike'⟩ := alike.consumeWithMode .typePunctuation
    exact ⟨[token], [token], cached', uncached', by rw [Lexer.perform, shows]; rfl,
      by rw [Lexer.perform, scans]; rfl, alike', iff_of_true rfl rfl⟩

/-! ## 5. Runs -/

/-- **A run on both sources.** -/
theorem Alike.performAll (operations : List Operation) :
    ∃ shown tokens cached' uncached',
      performAll (scanTokenAt alphanumeric text) cached operations = some (shown, cached') ∧
      performAll (scanTokenAt alphanumeric text) uncached operations = some (tokens, uncached') ∧
      (shown = tokens ↔ NeverDiverges (scanTokenAt alphanumeric text) cached operations) := by
  induction operations generalizing cached uncached with
  | nil => exact ⟨[], [], cached, uncached, rfl, rfl, iff_of_true rfl trivial⟩
  | cons operation operations ih =>
    obtain ⟨first, first', cached', uncached', shows, scans, alike', agree⟩ := alike.perform operation
    obtain ⟨later, later', last, last', rest, rest', agrees⟩ := ih alike'
    refine ⟨first :: later, first' :: later', last, last', ?_, ?_, ?_⟩
    · simp [Lexer.performAll, shows, some_bind, rest]
    · simp [Lexer.performAll, scans, some_bind, rest']
    · have next : (∀ tokens source', Lexer.perform (scanTokenAt alphanumeric text) cached operation =
        some (tokens, source') → NeverDiverges (scanTokenAt alphanumeric text) source' operations) ↔
        NeverDiverges (scanTokenAt alphanumeric text) cached' operations := by
        constructor
        · intro all
          exact all first cached' shows
        · intro kept tokens source' performed
          cases shows.symm.trans performed
          exact kept
      rw [List.cons.injEq, agree, agrees, NeverDiverges, next]

end

/-- **The policies agree where no operation diverges**, and only there: for every text and every sequence of
operations. -/
theorem policies_agree_iff (alphanumeric : Char → Bool) (text : List Char) (operations : List Operation) :
    ∃ shown tokens cached uncached,
      performAll (scanTokenAt alphanumeric text) (.withCachePolicy .cacheTokens) operations = some (shown, cached) ∧
      performAll (scanTokenAt alphanumeric text) (.withCachePolicy .doNotCacheTokens) operations =
        some (tokens, uncached) ∧ (shown = tokens ↔
        NeverDiverges (scanTokenAt alphanumeric text) (.withCachePolicy .cacheTokens) operations) := by
  have start : Alike alphanumeric text (.withCachePolicy .cacheTokens) (.withCachePolicy .doNotCacheTokens) :=
    ⟨rfl, rfl, rfl, onBoundary_zero text, .inl trivial⟩
  exact start.performAll operations

/-- Looking one token past an end of file that carries trivia, the policies differ. -/
theorem lookahead_past_end_differs :
    ((LexerTokenSource.withCachePolicy .cacheTokens).lookahead (scanTokenAt (fun _ => false) [' ']) 1).map
        Prod.fst = some ⟨.endOfFileToken, ⟨1, 1⟩, [], []⟩ ∧
    ((LexerTokenSource.withCachePolicy .doNotCacheTokens).lookahead (scanTokenAt (fun _ => false) [' ']) 1).map
        Prod.fst = some ⟨.endOfFileToken, ⟨1, 1⟩, [⟨.whitespaceTrivia, ⟨0, 1⟩⟩], []⟩ := by
  decide +kernel

end Bray.Lexer
