/-
  File:      Bray/Lexer/Lossless.lean
  Subject:   THE TOKEN SOURCE LOSES NOTHING: what is consumed tiles the text, whatever was looked ahead at and
             however a token was split.

  **The invariant** `Valid`: the cache holds the tokens that scanning from the cursor yields, one behind the
  other, and behind the end of file only more ends of file (`Ahead`). Once the end of file is consumed the
  cursor stays at the end of the text; the cache may then hold the consumed token still.

  **The consequences.** Each consumed token begins where the one before ended, up to the first end of file,
  which ends with the text (`performAll_spec`); every consume but the last goes on (`consumeAll_ends`).
-/
import Bray.Lexer.Tokens
import Bray.Lexer.TokenSource

namespace Bray.Lexer

open Lib List Option

variable {alphanumeric : Char → Bool} {text : List Char} {cursor : Nat} {tokens : List SyntaxToken}

/-! ## 1. The tokens ahead -/

/-- The end of file without trivia. -/
def bareEof (text : List Char) : SyntaxToken := .endOfFile (textLen text)

theorem bareEof_isEndOfFile : (bareEof text).isEndOfFile = true := rfl

/-- **The tokens that scanning yields from an offset on**, one behind the other; behind the end of file there
are only ends of file. -/
def Ahead (alphanumeric : Char → Bool) (text : List Char) : Nat → List SyntaxToken → Prop
  | _, [] => True
  | offset, token :: tokens =>
    scanTokenAt alphanumeric text offset .normal = some token ∧
      if token.isEndOfFile = true then tokens = List.replicate tokens.length (bareEof text)
      else Ahead alphanumeric text token.fullRange.end tokens

variable {mode : LexerScanMode} {token eof : SyntaxToken}

theorem scanned_covers (boundary : OnBoundary text cursor)
    (scanned : scanTokenAt alphanumeric text cursor mode = some token) : Covers text cursor token := by
  obtain ⟨token', eq, covers⟩ := @scanTokenAt_covers alphanumeric _ _ boundary mode
  obtain rfl := Option.some.inj (eq.symm.trans scanned)
  exact covers

theorem Covers.eof_end (covers : Covers text cursor token) (eof : token.isEndOfFile = true) :
    token.fullRange.end = textLen text ∧ token.range.start = textLen text := by
  obtain ⟨range, trailing⟩ := covers.eof eof
  have tiles := covers.tiles
  rw [SyntaxToken.pieces, trailing] at tiles
  obtain ⟨_, _, _, _, _, ends⟩ := tiles_append.mp tiles
  rw [range] at ends
  exact ⟨ends.symm, by rw [range]; rfl⟩

theorem Covers.le (covers : Covers text cursor token) :
    cursor ≤ token.fullRange.end := covers.tiles.le

/-- A token that is not the end of file takes the scanner further. -/
theorem Covers.lt (covers : Covers text cursor token) (more : token.isEndOfFile = false) :
    cursor < token.fullRange.end := by
  have wide := covers.lexeme more
  obtain ⟨middle, front, at_, _, _, back⟩ := tiles_append.mp covers.tiles
  have := front.le
  have := Tiles.le back
  omega

/-- The next token can be cached. -/
theorem ahead_push (ahead : Ahead alphanumeric text cursor tokens)
    (open_ : tokens.getLast?.filter SyntaxToken.isEndOfFile = none)
    (scanned : scanTokenAt alphanumeric text (nextOffset cursor tokens) .normal = some token) :
    Ahead alphanumeric text cursor (tokens ++ [token]) := by
  induction tokens generalizing cursor with
  | nil =>
    refine ⟨scanned, ?_⟩
    split
    · rfl
    · trivial
  | cons first tokens ih =>
    obtain ⟨here, rest⟩ := ahead
    refine ⟨here, ?_⟩
    by_cases eof : first.isEndOfFile = true
    · -- then the last token is the end of file as well
      rw [if_pos eof] at rest
      exfalso
      rcases eq_nil_or_concat tokens with rfl | ⟨others, last, rfl⟩
      · simp [eof] at open_
      · rw [concat_eq_append] at rest open_
        have last_eq : last = bareEof text :=
          eq_of_mem_replicate (rest ▸ mem_append_right _ (.head _))
        rw [← cons_append, getLast?_append] at open_
        simp [last_eq, bareEof_isEndOfFile] at open_
    · rw [if_neg eof] at rest ⊢
      cases tokens with
      | nil => exact ih rest rfl scanned
      | cons second tokens => exact ih rest open_ scanned

section

variable (boundary : OnBoundary text cursor) (ahead : Ahead alphanumeric text cursor tokens)
include boundary ahead

theorem ahead_fill {missing : Nat}
    (closed : tokens.getLast?.filter SyntaxToken.isEndOfFile = some eof) :
    Ahead alphanumeric text cursor (fillWithEof tokens missing eof.range.start) := by
  induction tokens generalizing cursor with
  | nil => cases closed
  | cons first tokens ih =>
    obtain ⟨here, rest⟩ := ahead
    refine ⟨here, ?_⟩
    have covers := scanned_covers boundary here
    by_cases isEof : first.isEndOfFile = true
    · rw [if_pos isEof] at rest ⊢
      have at_ : eof.range.start = textLen text := by
        obtain ⟨last, _⟩ := filter_eq_some_iff.mp closed
        rcases eq_nil_or_concat tokens with rfl | ⟨others, other, rfl⟩
        · cases last
          exact (covers.eof_end isEof).2
        · rw [concat_eq_append] at rest last
          have other_eq : other = bareEof text :=
            eq_of_mem_replicate (rest ▸ mem_append_right _ (.head _))
          rw [← cons_append, getLast?_append] at last
          cases last
          rw [other_eq]
          rfl
      rw [at_]
      show tokens ++ List.replicate missing (bareEof text) =
        List.replicate (tokens ++ List.replicate missing (bareEof text)).length (bareEof text)
      rw [length_append, length_replicate, replicate_add, ← rest]
    · rw [if_neg isEof] at rest ⊢
      cases tokens with
      | nil =>
        obtain ⟨last, eof'⟩ := filter_eq_some_iff.mp closed
        cases last
        exact absurd eof' isEof
      | cons second tokens => exact ih covers.ends rest closed

theorem boundary_nextOffset :
    OnBoundary text (nextOffset cursor tokens) := by
  induction tokens generalizing cursor with
  | nil => exact boundary
  | cons first tokens ih =>
    obtain ⟨here, rest⟩ := ahead
    have covers := scanned_covers boundary here
    cases tokens with
    | nil => exact covers.ends
    | cons second tokens =>
      by_cases eof : first.isEndOfFile = true
      · rw [if_pos eof] at rest
        have last : ∃ token ∈ second :: tokens, (second :: tokens).getLast? = some token :=
          ⟨_, getLast_mem (cons_ne_nil _ _), getLast?_eq_getLast_of_ne_nil _⟩
        obtain ⟨token, mem, eq⟩ := last
        have token_eq : token = bareEof text := eq_of_mem_replicate (rest ▸ mem)
        rw [nextOffset, getLast?_cons_cons, eq, token_eq]
        exact onBoundary_len text
      · rw [if_neg eof] at rest
        exact ih covers.ends rest

/-- **The cache can be extended** by as many tokens as are wanted. -/
theorem cacheMore_ahead
    (missing : Nat) :
    ∃ more, cacheMore (scanTokenAt alphanumeric text) cursor missing tokens = some (tokens ++ more) ∧
      more.length = missing ∧ Ahead alphanumeric text cursor (tokens ++ more) := by
  induction missing generalizing tokens with
  | zero => exact ⟨[], by rw [append_nil]; rfl, rfl, by rwa [append_nil]⟩
  | succ missing ih =>
    rw [cacheMore]
    cases closed : tokens.getLast?.filter SyntaxToken.isEndOfFile with
    | some eof => exact ⟨_, rfl, length_replicate, ahead_fill boundary ahead closed⟩
    | none =>
      obtain ⟨token, scanned, _⟩ :=
        @scanTokenAt_covers alphanumeric _ _ (boundary_nextOffset boundary ahead) .normal
      obtain ⟨more, cached, length, kept⟩ := ih (ahead_push ahead closed scanned)
      refine ⟨token :: more, ?_, by rw [length_cons, length], ?_⟩
      · simp [scanned, some_bind, cached, append_assoc]
      · rwa [append_assoc, singleton_append] at kept

end

/-! ## 2. The invariant of the source -/

/-- **The invariant.** Before the end of file is consumed, the cache holds the tokens ahead. Afterwards the
cursor is at the end of the text, and the cache holds ends of file: those ahead, or the consumed one first. -/
structure Valid (alphanumeric : Char → Bool) (text : List Char) (source : LexerTokenSource)
    (ended : Option SyntaxToken) : Prop where
  boundary : OnBoundary text source.cursor
  uncached : source.cachePolicy = .doNotCacheTokens → source.cachedTokens = []
  ahead : ended = none → Ahead alphanumeric text source.cursor source.cachedTokens
  atEnd : ∀ eof, ended = some eof → eof.isEndOfFile = true ∧ eof.range = .empty (textLen text) ∧
    eof.fullRange.end = textLen text ∧ source.cursor = textLen text ∧
      (Ahead alphanumeric text source.cursor source.cachedTokens ∨
        ∃ others, source.cachedTokens = eof :: List.replicate others (bareEof text))

theorem ahead_end_iff : Ahead alphanumeric text (textLen text) tokens ↔
    tokens = List.replicate tokens.length (bareEof text) := by
  cases tokens with
  | nil => exact ⟨fun _ => rfl, fun _ => trivial⟩
  | cons token tokens =>
    have at_ : scanTokenAt alphanumeric text (textLen text) .normal = some (bareEof text) := scanTokenAt_end .normal
    rw [length_cons, replicate_succ, List.cons.injEq]
    constructor
    · rintro ⟨here, rest⟩
      obtain rfl := Option.some.inj (at_.symm.trans here)
      exact ⟨rfl, rest⟩
    · rintro ⟨rfl, rest⟩
      exact ⟨at_, by rw [if_pos bareEof_isEndOfFile]; exact rest⟩

variable {source : LexerTokenSource} {ended : Option SyntaxToken}

/-- The tokens that a source that was filled shows: those ahead, or the end of file that was consumed. -/
theorem cacheMore_valid
    (valid : Valid alphanumeric text source ended) (missing : Nat) :
    ∃ more, cacheMore (scanTokenAt alphanumeric text) source.cursor missing source.cachedTokens =
        some (source.cachedTokens ++ more) ∧ more.length = missing ∧
      (source.cachePolicy = .cacheTokens →
        Valid alphanumeric text { source with cachedTokens := source.cachedTokens ++ more } ended) := by
  have cached : source.cachePolicy = .cacheTokens → source.cachePolicy ≠ .doNotCacheTokens := by
    intro policy
    rw [policy]
    nofun
  cases ended with
  | none =>
    obtain ⟨more, eq, length, kept⟩ := cacheMore_ahead valid.boundary (valid.ahead rfl) missing
    exact ⟨more, eq, length, fun policy => ⟨valid.boundary, fun no => absurd no (cached policy),
      fun _ => kept, nofun⟩⟩
  | some eof =>
    obtain ⟨isEof, range, full, end_, ahead | ⟨others, held⟩⟩ := valid.atEnd eof rfl
    · obtain ⟨more, eq, length, kept⟩ := cacheMore_ahead valid.boundary ahead missing
      refine ⟨more, eq, length, fun policy => ⟨valid.boundary, fun no => absurd no (cached policy), nofun, ?_⟩⟩
      rintro _ ⟨⟩
      exact ⟨isEof, range, full, end_, .inl kept⟩
    · refine ⟨List.replicate missing (bareEof text), ?_, length_replicate,
        fun policy => ⟨valid.boundary, fun no => absurd no (cached policy), nofun, ?_⟩⟩
      · cases missing with
        | zero => rw [cacheMore, replicate_zero, append_nil]
        | succ missing =>
          have last : source.cachedTokens.getLast?.filter SyntaxToken.isEndOfFile =
              some (if others = 0 then eof else bareEof text) := by
            rw [held]
            cases others with
            | zero => simp [isEof]
            | succ others =>
              rw [getLast?_cons, getLast?_replicate]
              simp [bareEof_isEndOfFile]
          rw [cacheMore, last]
          have start : (if others = 0 then eof else bareEof text).range.start = textLen text := by
            split
            · rw [range]; rfl
            · rfl
          simp only [start]
          rfl
      · rintro _ ⟨⟩
        refine ⟨isEof, range, full, end_, .inr ⟨others + missing, ?_⟩⟩
        rw [held, cons_append, replicate_add]

/-! ## 3. Operations -/

/-- The token that is shown next: what is scanned at the cursor; once the end of file was consumed, that token
again or an end of file without trivia. -/
def Next (text : List Char) (cursor : Nat) (ended : Option SyntaxToken) (token : SyntaxToken) : Prop :=
  match ended with
  | none => Covers text cursor token
  | some eof => token = eof ∨ token = bareEof text

/-- The end of file that is consumed first. -/
def endedBy (ended : Option SyntaxToken) (token : SyntaxToken) : Option SyntaxToken :=
  ended.or (if token.isEndOfFile = true then some token else none)

theorem Valid.next
    (valid : Valid alphanumeric text source ended) (head : source.cachedTokens.head? = some token) :
    Next text source.cursor ended token := by
  obtain ⟨rest, held⟩ : ∃ rest, source.cachedTokens = token :: rest := by
    cases cache : source.cachedTokens with
    | nil => rw [cache] at head; cases head
    | cons first rest => rw [cache] at head; cases head; exact ⟨rest, rfl⟩
  cases ended with
  | none =>
    have ahead := valid.ahead rfl
    rw [held] at ahead
    exact scanned_covers valid.boundary ahead.1
  | some eof =>
    obtain ⟨_, _, _, end_, ahead | ⟨others, held'⟩⟩ := valid.atEnd eof rfl
    · rw [end_, held] at ahead
      exact .inr (List.cons.inj (ahead_end_iff.mp ahead)).1
    · exact .inl (List.cons.inj (held.symm.trans held')).1

theorem scanned_next
    (valid : Valid alphanumeric text source ended)
    (scanned : scanTokenAt alphanumeric text source.cursor mode = some token) :
    Next text source.cursor ended token := by
  cases ended with
  | none => exact scanned_covers valid.boundary scanned
  | some eof =>
    obtain ⟨_, _, _, end_, _⟩ := valid.atEnd eof rfl
    rw [end_, scanTokenAt_end] at scanned
    exact .inr (Option.some.inj scanned).symm

theorem lookaheadFrom_eq {token : SyntaxToken} (covers : Covers text cursor token) (distance : Nat) :
    ∃ shown, lookaheadFrom (scanTokenAt alphanumeric text) distance token = some shown := by
  induction distance generalizing cursor token with
  | zero => exact ⟨token, rfl⟩
  | succ distance ih =>
    rw [lookaheadFrom]
    split
    · exact ⟨token, rfl⟩
    · obtain ⟨next, scanned, covers'⟩ := @scanTokenAt_covers alphanumeric _ _ covers.ends .normal
      rw [scanned]
      exact ih covers'

/-- **Looking ahead** only fills the cache. -/
theorem lookahead_spec
    (valid : Valid alphanumeric text source ended) (distance : Nat) :
    ∃ token source', source.lookahead (scanTokenAt alphanumeric text) distance = some (token, source') ∧
      Valid alphanumeric text source' ended ∧ source'.cursor = source.cursor ∧
      source'.cachePolicy = source.cachePolicy ∧
      (distance = 0 → Next text source.cursor ended token ∧
        (source.cachePolicy = .cacheTokens → source'.cachedTokens.head? = some token) ∧
        (source.cachePolicy = .doNotCacheTokens →
          scanTokenAt alphanumeric text source.cursor .normal = some token)) := by
  unfold LexerTokenSource.lookahead
  cases policy : source.cachePolicy with
  | cacheTokens =>
    obtain ⟨more, cached, length, kept⟩ :=
      cacheMore_valid valid (distance + 1 - source.cachedTokens.length)
    have long : distance < (source.cachedTokens ++ more).length := by
      rw [length_append]
      omega
    have filled := kept policy
    simp only [ensureCached, cached, some_bind, getElem?_eq_getElem long]
    refine ⟨_, _, rfl, filled, rfl, policy, ?_⟩
    rintro rfl
    have head : (source.cachedTokens ++ more).head? = some ((source.cachedTokens ++ more)[0]) := by
      rw [head?_eq_getElem?, getElem?_eq_getElem long]
    exact ⟨filled.next head, fun _ => head, nofun⟩
  | doNotCacheTokens =>
    obtain ⟨token, scanned, covers⟩ := @scanTokenAt_covers alphanumeric _ _ valid.boundary .normal
    obtain ⟨shown, eq⟩ := @lookaheadFrom_eq alphanumeric _ _ _ covers distance
    simp only [uncachedLookahead, scanned, some_bind, eq, map_some]
    refine ⟨_, _, rfl, valid, rfl, policy, ?_⟩
    rintro rfl
    cases eq
    exact ⟨scanned_next valid scanned, nofun, fun _ => rfl⟩

theorem window_spec
    (valid : Valid alphanumeric text source ended) (len : Nat) :
    ∃ tokens source', source.lookaheadWindow (scanTokenAt alphanumeric text) len = some (tokens, source') ∧
      Valid alphanumeric text source' ended ∧ source'.cursor = source.cursor ∧
      source'.cachePolicy = source.cachePolicy := by
  unfold LexerTokenSource.lookaheadWindow
  by_cases empty : len = 0
  · rw [if_pos empty]
    exact ⟨_, _, rfl, valid, rfl, rfl⟩
  · rw [if_neg empty]
    cases policy : source.cachePolicy with
    | cacheTokens =>
      obtain ⟨more, cached, _, kept⟩ := cacheMore_valid valid (len - 1 + 1 - source.cachedTokens.length)
      simp only [ensureCached, cached, some_bind]
      exact ⟨_, _, rfl, kept policy, rfl, policy⟩
    | doNotCacheTokens =>
      have window : ∀ len cursor, OnBoundary text cursor →
          ∃ tokens, uncachedWindow (scanTokenAt alphanumeric text) len cursor = some tokens := by
        intro len
        induction len with
        | zero => exact fun _ _ => ⟨[], rfl⟩
        | succ len ih =>
          intro cursor boundary
          obtain ⟨token, scanned, covers⟩ := @scanTokenAt_covers alphanumeric _ _ boundary .normal
          obtain ⟨tokens, eq⟩ := ih _ covers.ends
          simp only [uncachedWindow, scanned, some_bind, eq]
          split
          · exact ⟨_, rfl⟩
          · exact ⟨_, rfl⟩
      obtain ⟨tokens, eq⟩ := window len source.cursor valid.boundary
      simp only [eq, map_some]
      exact ⟨_, _, rfl, valid, rfl, policy⟩

/-- What an operation that consumes does: it returns the token that is next and stands behind it. -/
structure Consumes (alphanumeric : Char → Bool) (text : List Char) (source : LexerTokenSource)
    (ended : Option SyntaxToken) (token : SyntaxToken) (source' : LexerTokenSource) : Prop where
  next : Next text source.cursor ended token
  cursor : source'.cursor = token.fullRange.end
  valid : Valid alphanumeric text source' (endedBy ended token)
  policy : source'.cachePolicy = source.cachePolicy
  again : source.cachePolicy = .doNotCacheTokens → ended ≠ none → token = bareEof text

section

variable (valid : Valid alphanumeric text source ended)
include valid

theorem scanned_again
    (scanned : scanTokenAt alphanumeric text source.cursor mode = some token) (closed : ended ≠ none) :
    token = bareEof text := by
  cases ended with
  | none => exact absurd rfl closed
  | some eof =>
    obtain ⟨_, _, _, end_, _⟩ := valid.atEnd eof rfl
    rw [end_, scanTokenAt_end] at scanned
    exact (Option.some.inj scanned).symm

/-- What is known once the end of file has been consumed. -/
theorem atEnd_of_next
    (next : Next text source.cursor ended token)
    (by_ : endedBy ended token = some eof) :
    token.isEndOfFile = true ∧ token.fullRange.end = textLen text ∧ eof.isEndOfFile = true ∧
      eof.range = .empty (textLen text) ∧ eof.fullRange.end = textLen text ∧ (token = eof ∨ token = bareEof text) := by
  cases ended with
  | none =>
    rw [endedBy, none_or] at by_
    split at by_
    · rename_i isEof
      cases by_
      have covers : Covers text source.cursor token := next
      obtain ⟨range, _⟩ := covers.eof isEof
      obtain ⟨full, _⟩ := covers.eof_end isEof
      exact ⟨isEof, full, isEof, range, full, .inl rfl⟩
    · cases by_
  | some first =>
    cases by_
    obtain ⟨isEof, range, full, _, _⟩ := valid.atEnd eof rfl
    have next' : token = eof ∨ token = bareEof text := next
    rcases next' with rfl | rfl
    · exact ⟨isEof, full, isEof, range, full, .inl rfl⟩
    · exact ⟨rfl, rfl, isEof, range, full, .inr rfl⟩

theorem boundary_of_next
    (next : Next text source.cursor ended token) :
    OnBoundary text token.fullRange.end := by
  cases ended with
  | none => exact Covers.ends next
  | some eof =>
    have := (atEnd_of_next valid next rfl).2.1
    rw [this]
    exact onBoundary_len text

theorem consume_spec :
    ∃ token source', source.consume (scanTokenAt alphanumeric text) = some (token, source') ∧
      Consumes alphanumeric text source ended token source' := by
  obtain ⟨token, shown, looked, valid', cursor, policy, first⟩ := lookahead_spec valid 0
  obtain ⟨next, head, scanned⟩ := first rfl
  have again : source.cachePolicy = .doNotCacheTokens → ended ≠ none → token = bareEof text :=
    fun no closed => scanned_again valid (scanned no) closed
  rw [← cursor] at next
  have boundary := boundary_of_next valid' next
  refine ⟨token, shown.advanceAfterConsuming token, by rw [LexerTokenSource.consume, looked]; rfl, ?_⟩
  unfold LexerTokenSource.advanceAfterConsuming
  by_cases isEof : token.isEndOfFile = true
  · rw [if_pos isEof]
    refine ⟨by rw [← cursor]; exact next, rfl, ⟨boundary, valid'.uncached, ?_, ?_⟩, policy, again⟩
    · intro open_
      cases ended with
      | none => rw [endedBy, none_or, if_pos isEof] at open_; cases open_
      | some eof => cases open_
    · intro eof by_
      obtain ⟨_, full, eofIs, range, eofFull, _⟩ := atEnd_of_next valid' next by_
      refine ⟨eofIs, range, eofFull, full, ?_⟩
      simp only [full]
      cases ended with
      | some consumed =>
        cases by_
        obtain ⟨_, _, _, end_, held⟩ := valid'.atEnd eof rfl
        rwa [end_] at held
      | none =>
        rw [endedBy, none_or, if_pos isEof] at by_
        cases by_
        cases held : shown.cachedTokens with
        | nil => exact .inl trivial
        | cons cached rest =>
          have ahead := valid'.ahead rfl
          rw [held] at ahead
          obtain ⟨scanned, rest_eq⟩ := ahead
          have same : cached = token := by
            cases policy' : source.cachePolicy with
            | cacheTokens =>
              have := head policy'
              rw [held] at this
              exact Option.some.inj this
            | doNotCacheTokens =>
              have := valid'.uncached (policy.trans policy')
              rw [held] at this
              cases this
          subst same
          rw [if_pos isEof] at rest_eq
          exact .inr ⟨rest.length, by rw [← rest_eq]⟩
  · have open_ : ended = none := by
      cases ended with
      | none => rfl
      | some eof => exact absurd (atEnd_of_next valid' next rfl).1 isEof
    subst open_
    rw [if_neg isEof]
    have still : endedBy none token = none := by rw [endedBy, none_or, if_neg isEof]
    refine ⟨by rw [← cursor]; exact next, rfl, ?_, policy, again⟩
    rw [still]
    refine ⟨boundary, fun no => ?_, fun _ => ?_, nofun⟩
    · have : shown.cachedTokens = [] := valid'.uncached no
      simp only [this, drop_nil, ite_self]
    · split
      · rename_i caches
        have first := head (policy.symm.trans caches)
        have ahead := valid'.ahead rfl
        cases held : shown.cachedTokens with
        | nil => exact trivial
        | cons cached rest =>
          rw [held] at first ahead
          cases first
          have rest' := ahead.2
          rw [if_neg isEof] at rest'
          exact rest'
      · rename_i caches
        have : shown.cachedTokens = [] := by
          cases policy' : shown.cachePolicy with
          | cacheTokens => exact absurd policy' caches
          | doNotCacheTokens => exact valid'.uncached policy'
        rw [this]
        trivial

theorem consumeWithMode_spec
    (mode : LexerScanMode) :
    ∃ token source', source.consumeWithMode (scanTokenAt alphanumeric text) mode = some (token, source') ∧
      Consumes alphanumeric text source ended token source' := by
  obtain ⟨token, scanned, _⟩ := @scanTokenAt_covers alphanumeric _ _ valid.boundary mode
  have next := scanned_next valid scanned
  refine ⟨token, { source with cachedTokens := [], cursor := token.fullRange.end },
    by rw [LexerTokenSource.consumeWithMode, scanned]; rfl, next, rfl,
    ⟨boundary_of_next valid next, fun _ => rfl, fun _ => trivial, fun eof by_ => ?_⟩, rfl,
    fun _ closed => scanned_again valid scanned closed⟩
  obtain ⟨_, full, eofIs, range, eofFull, _⟩ := atEnd_of_next valid next by_
  exact ⟨eofIs, range, eofFull, full, .inl trivial⟩

/-- **What an operation does.** -/
theorem perform_spec
    (operation : Operation) :
    ∃ tokens source', perform (scanTokenAt alphanumeric text) source operation = some (tokens, source') ∧
      if operation.consumes = true then
        ∃ token, tokens = [token] ∧ Consumes alphanumeric text source ended token source'
      else
        Valid alphanumeric text source' ended ∧ source'.cursor = source.cursor ∧
          source'.cachePolicy = source.cachePolicy := by
  cases operation with
  | peek =>
    obtain ⟨token, shown, looked, valid', cursor, policy, _⟩ := lookahead_spec valid 0
    exact ⟨[token], shown, by rw [perform, LexerTokenSource.peek, looked]; rfl, valid', cursor, policy⟩
  | lookahead distance =>
    obtain ⟨token, shown, looked, valid', cursor, policy, _⟩ := lookahead_spec valid distance
    exact ⟨[token], shown, by rw [perform, looked]; rfl, valid', cursor, policy⟩
  | lookaheadWindow len =>
    obtain ⟨tokens, shown, looked, valid', cursor, policy⟩ := window_spec valid len
    exact ⟨tokens, shown, looked, valid', cursor, policy⟩
  | consume =>
    obtain ⟨token, source', done, consumes⟩ := consume_spec valid
    exact ⟨[token], source', by rw [perform, done]; rfl, token, rfl, consumes⟩
  | consumeTupleElementIndexAfterDot =>
    obtain ⟨token, source', done, consumes⟩ := consumeWithMode_spec valid .tupleElementIndexAfterDot
    exact ⟨[token], source', by rw [perform, done]; rfl, token, rfl, consumes⟩
  | consumeTypePunctuation =>
    obtain ⟨token, source', done, consumes⟩ := consumeWithMode_spec valid .typePunctuation
    exact ⟨[token], source', by rw [perform, done]; rfl, token, rfl, consumes⟩

end

/-! ## 4. Runs -/

/-- The tokens consumed from a cursor on are each the next one. -/
def Chain (text : List Char) (policy : LexerCachePolicy) : Nat → Option SyntaxToken → List SyntaxToken → Nat → Prop
  | cursor, _, [], cursor' => cursor = cursor'
  | cursor, ended, token :: tokens, cursor' =>
    Next text cursor ended token ∧
      (policy = .doNotCacheTokens → ended ≠ none → token = bareEof text) ∧
      Chain text policy token.fullRange.end (endedBy ended token) tokens cursor'

/-- **What a run does**: it does not panic, it keeps the invariant, and each token it consumes is the next. -/
theorem performAll_spec
    (valid : Valid alphanumeric text source ended) (operations : List Operation) :
    ∃ returned source', performAll (scanTokenAt alphanumeric text) source operations = some (returned, source') ∧
      returned.length = operations.length ∧
      source'.cachePolicy = source.cachePolicy ∧
      Valid alphanumeric text source' ((consumed operations returned).foldl endedBy ended) ∧
      Chain text source.cachePolicy source.cursor ended (consumed operations returned) source'.cursor := by
  induction operations generalizing source ended with
  | nil => exact ⟨[], source, rfl, rfl, rfl, valid, rfl⟩
  | cons operation operations ih =>
    obtain ⟨tokens, shown, performed, does⟩ := perform_spec valid operation
    by_cases takes : operation.consumes = true
    · rw [if_pos takes] at does
      obtain ⟨token, rfl, consumes⟩ := does
      obtain ⟨returned, source', later, length, policy, valid', chain⟩ := ih consumes.valid
      have eq : consumed (operation :: operations) ([token] :: returned) =
          token :: consumed operations returned := by
        simp [consumed, filter_cons_of_pos, takes]
      refine ⟨[token] :: returned, source', ?_, by rw [length_cons, length, length_cons],
        policy.trans consumes.policy, ?_, ?_⟩
      · simp only [performAll, performed, some_bind, later]
      · rw [eq]
        exact valid'
      · rw [eq]
        rw [consumes.cursor, consumes.policy] at chain
        exact ⟨consumes.next, consumes.again, chain⟩
    · rw [if_neg takes] at does
      obtain ⟨kept, cursor, policy⟩ := does
      obtain ⟨returned, source', later, length, policy', valid', chain⟩ := ih kept
      have eq : consumed (operation :: operations) (tokens :: returned) = consumed operations returned := by
        simp [consumed, filter_cons_of_neg, takes]
      refine ⟨tokens :: returned, source', ?_, by rw [length_cons, length, length_cons],
        policy'.trans policy, ?_, ?_⟩
      · simp only [performAll, performed, some_bind, later]
      · rw [eq]
        exact valid'
      · rw [eq]
        rwa [cursor, policy] at chain

theorem valid_start (alphanumeric : Char → Bool) (text : List Char) (policy : LexerCachePolicy) :
    Valid alphanumeric text (.withCachePolicy policy) none :=
  ⟨onBoundary_zero text, fun _ => rfl, fun _ => trivial, nofun⟩

/-- **What the consumed tokens are**: tokens that are not empty, then, once it is reached, the end of file;
their full ranges abut from the start of the text on, every boundary between two pieces is one of the text, and
with the end of file they cover it whole. What is consumed after that is the end of file again, or one without
trivia. -/
structure Lossless (text : List Char) (policy : LexerCachePolicy) (tokens : List SyntaxToken) (cursor : Nat)
    (front ends later : List SyntaxToken) : Prop where
  order : tokens = front ++ ends ++ later
  lexemes : ∀ token ∈ front, token.isEndOfFile = false ∧ token.range.start < token.range.end
  eof : ends = [] ∧ later = [] ∨ ∃ eof, ends = [eof] ∧ eof.isEndOfFile = true ∧ cursor = textLen text ∧
    ∀ token ∈ later, token = eof ∨ token = bareEof text
  tiles : Tiles text 0 ((front ++ ends).map SyntaxToken.fullRange) cursor
  pieces : ∀ token ∈ front ++ ends, Tiles text token.fullRange.start token.pieces token.fullRange.end
  again : policy = .doNotCacheTokens → ∀ token ∈ later, token = bareEof text

/-- What is consumed behind the end of file. -/
theorem Chain.behind {policy : LexerCachePolicy} {cursor' : Nat}
    (chain : Chain text policy cursor (some eof) tokens cursor') (at_ : cursor = textLen text)
    (full : eof.fullRange.end = textLen text) :
    cursor' = textLen text ∧ (∀ token ∈ tokens, token = eof ∨ token = bareEof text) ∧
      (policy = .doNotCacheTokens → ∀ token ∈ tokens, token = bareEof text) := by
  induction tokens generalizing cursor with
  | nil => exact ⟨chain.symm.trans at_, nofun, fun _ => nofun⟩
  | cons token tokens ih =>
    obtain ⟨next, again, rest⟩ := chain
    have next' : token = eof ∨ token = bareEof text := next
    have end_ : token.fullRange.end = textLen text := by
      rcases next' with rfl | rfl
      · exact full
      · rfl
    obtain ⟨there, others, bare⟩ := ih rest end_
    refine ⟨there, forall_mem_cons.mpr ⟨next', others⟩, fun no => ?_⟩
    exact forall_mem_cons.mpr ⟨again no nofun, bare no⟩

/-- **A chain of tokens loses nothing.** -/
theorem Chain.lossless {policy : LexerCachePolicy} {cursor' : Nat} {front : List SyntaxToken}
    (chain : Chain text policy cursor none tokens cursor')
    (before : Lossless text policy front cursor front [] []) :
    ∃ front' ends later, Lossless text policy (front ++ tokens) cursor' front' ends later ∧
      (tokens.foldl endedBy none ≠ none → ends ≠ []) := by
  induction tokens generalizing cursor front with
  | nil =>
    obtain rfl : cursor = cursor' := chain
    exact ⟨front, [], [], by rwa [append_nil], fun no => absurd rfl no⟩
  | cons token tokens ih =>
    obtain ⟨next, _, rest⟩ := chain
    have covers : Covers text cursor token := next
    have tiles : Tiles text 0 ((front ++ [token]).map SyntaxToken.fullRange) token.fullRange.end := by
      rw [map_append, tiles_append]
      have := before.tiles
      rw [append_nil] at this
      exact ⟨cursor, this, covers.from_, covers.le, covers.ends, rfl⟩
    have pieces : ∀ other ∈ front ++ [token],
        Tiles text other.fullRange.start other.pieces other.fullRange.end := by
      intro other mem
      rcases mem_append.mp mem with old | new
      · exact before.pieces other (by rwa [append_nil])
      · rw [mem_singleton.mp new, covers.from_]
        exact covers.tiles
    by_cases isEof : token.isEndOfFile = true
    · rw [endedBy, none_or, if_pos isEof] at rest
      obtain ⟨full, _⟩ := covers.eof_end isEof
      obtain ⟨end_, others, bare⟩ := rest.behind full full
      refine ⟨front, [token], tokens, ⟨by simp, before.lexemes,
        .inr ⟨token, rfl, isEof, end_, others⟩, ?_, pieces, bare⟩, fun _ => cons_ne_nil _ _⟩
      rw [end_, ← full]
      exact tiles
    · rw [endedBy, none_or, if_neg isEof] at rest
      have more : token.isEndOfFile = false := Bool.eq_false_iff.mpr isEof
      have grown : Lossless text policy (front ++ [token]) token.fullRange.end (front ++ [token]) [] [] := by
        refine ⟨by simp, fun other mem => ?_, .inl ⟨rfl, rfl⟩, by rwa [append_nil], by rwa [append_nil],
          fun _ => nofun⟩
        rcases mem_append.mp mem with old | new
        · exact before.lexemes other old
        · rw [mem_singleton.mp new]
          exact ⟨more, covers.lexeme more⟩
      obtain ⟨front', ends, later, lossless, closed⟩ := ih rest grown
      refine ⟨front', ends, later, ?_, ?_⟩
      · rwa [append_assoc, singleton_append] at lossless
      · rwa [foldl_cons, endedBy, none_or, if_neg isEof]

/-! ## 5. Nothing is lost -/

theorem performAll_append (scan : Scan) (source : LexerTokenSource) (first second : List Operation) :
    performAll scan source (first ++ second) = (do
      let (returned, source) ← performAll scan source first
      let (later, source) ← performAll scan source second
      some (returned ++ later, source)) := by
  induction first generalizing source with
  | nil => cases eq : performAll scan source second <;> simp [performAll, eq]
  | cons operation first ih =>
    simp [cons_append, performAll, bind_eq_bind, bind_assoc, bind_some, ih, cons_append]

theorem consumed_append {first second : List Operation} {returned later : List (List SyntaxToken)}
    (length : returned.length = first.length) :
    consumed (first ++ second) (returned ++ later) = consumed first returned ++ consumed second later := by
  unfold consumed
  rw [zip_append length.symm, filter_append, flatMap_append]

/-- **Consuming comes to the end of file**: each token takes the cursor further. -/
theorem consumeAll_ends (valid : Valid alphanumeric text source none) :
    ∃ count ≤ textLen text - source.cursor + 1, ∃ returned source',
      performAll (scanTokenAt alphanumeric text) source (List.replicate count .consume) = some (returned, source') ∧
        ∃ token ∈ consumed (List.replicate count .consume) returned, token.isEndOfFile = true := by
  generalize left : textLen text - source.cursor = bound
  induction bound using Nat.strongRecOn generalizing source with
  | ind bound ih =>
    obtain ⟨token, source', performed, consumes⟩ := consume_spec valid
    have step : perform (scanTokenAt alphanumeric text) source .consume = some ([token], source') := by
      rw [perform, performed]
      rfl
    by_cases isEof : token.isEndOfFile = true
    · refine ⟨1, by omega, [[token]], source', ?_, token, ?_, isEof⟩
      · simp [replicate_succ, performAll, step]
      · simp [consumed, Operation.consumes]
    · have more : token.isEndOfFile = false := Bool.eq_false_iff.mpr isEof
      have covers : Covers text source.cursor token := consumes.next
      have further := covers.lt more
      have within := covers.ends.le
      have still : endedBy none token = none := by rw [endedBy, none_or, if_neg isEof]
      have valid' := consumes.valid
      rw [still] at valid'
      rw [← consumes.cursor] at further within
      have length : utf8Len text = textLen text := rfl
      obtain ⟨count, le, returned, last, later, eof, mem, closed⟩ :=
        ih (textLen text - source'.cursor) (by omega) valid' rfl
      refine ⟨count + 1, by omega, [token] :: returned, last, ?_, eof, ?_, closed⟩
      · simp [replicate_succ, performAll, step, some_bind, later]
      · rw [replicate_succ]
        simp only [consumed, zip_cons_cons, Operation.consumes, filter_cons_of_pos,
          flatMap_cons, mem_append]
        exact .inr mem

theorem foldl_endedBy_some (eof : SyntaxToken) (tokens : List SyntaxToken) :
    tokens.foldl endedBy (some eof) = some eof := by
  induction tokens with
  | nil => rfl
  | cons token tokens ih => exact ih

theorem foldl_endedBy_ne_none {tokens : List SyntaxToken} (closed : ∃ token ∈ tokens, token.isEndOfFile = true) :
    tokens.foldl endedBy none ≠ none := by
  induction tokens with
  | nil =>
    obtain ⟨_, mem, _⟩ := closed
    cases mem
  | cons first tokens ih =>
    rw [foldl_cons, endedBy, none_or]
    by_cases isEof : first.isEndOfFile = true
    · rw [if_pos isEof, foldl_endedBy_some]
      nofun
    · rw [if_neg isEof]
      obtain ⟨token, mem, eof⟩ := closed
      rcases mem_cons.mp mem with rfl | later
      · exact absurd eof isEof
      · exact ih ⟨token, later, eof⟩

/-- **The lexer loses nothing and comes to an end**, for every text, either policy and every sequence of
operations. -/
theorem lexer_lossless (alphanumeric : Char → Bool) (text : List Char) (policy : LexerCachePolicy)
    (operations : List Operation) :
    (∃ returned source front ends later,
      performAll (scanTokenAt alphanumeric text) (.withCachePolicy policy) operations = some (returned, source) ∧
        Lossless text policy (consumed operations returned) source.cursor front ends later) ∧
    ∃ count ≤ textLen text + 1, ∃ returned source front eof later,
      performAll (scanTokenAt alphanumeric text) (.withCachePolicy policy)
        (operations ++ List.replicate count .consume) = some (returned, source) ∧
        Lossless text policy (consumed (operations ++ List.replicate count .consume) returned) (textLen text)
          front [eof] later := by
  have run : ∀ operations, ∃ returned source front ends later,
      performAll (scanTokenAt alphanumeric text) (.withCachePolicy policy) operations = some (returned, source) ∧
        returned.length = operations.length ∧
        Valid alphanumeric text source ((consumed operations returned).foldl endedBy none) ∧
        Lossless text policy (consumed operations returned) source.cursor front ends later ∧
        ((consumed operations returned).foldl endedBy none ≠ none → ends ≠ []) := by
    intro operations
    obtain ⟨returned, source, performed, length, _, valid, chain⟩ :=
      performAll_spec (valid_start alphanumeric text policy) operations
    have start : Lossless text policy [] 0 [] [] [] :=
      ⟨rfl, nofun, .inl ⟨rfl, rfl⟩, rfl, nofun, fun _ => nofun⟩
    obtain ⟨front, ends, later, lossless, closed⟩ := chain.lossless start
    exact ⟨returned, source, front, ends, later, performed, length, valid, lossless, closed⟩
  refine ⟨?_, ?_⟩
  · obtain ⟨returned, source, front, ends, later, performed, _, _, lossless, _⟩ := run operations
    exact ⟨returned, source, front, ends, later, performed, lossless⟩
  · obtain ⟨first, source, _, _, _, performed, length, valid, _, _⟩ := run operations
    -- the end of file was consumed already, or consuming comes to it
    obtain ⟨count, le, more, last, later, closed⟩ : ∃ count ≤ textLen text + 1, ∃ more last,
        performAll (scanTokenAt alphanumeric text) source (List.replicate count .consume) = some (more, last) ∧
          (consumed (operations ++ List.replicate count .consume) (first ++ more)).foldl endedBy none ≠ none := by
      cases ended : (consumed operations first).foldl endedBy none with
      | some eof =>
        refine ⟨0, by omega, [], source, rfl, ?_⟩
        rw [replicate_zero, append_nil, append_nil, ended]
        nofun
      | none =>
        rw [ended] at valid
        obtain ⟨count, le, more, last, later, closed⟩ := consumeAll_ends valid
        refine ⟨count, by omega, more, last, later, ?_⟩
        rw [consumed_append length, foldl_append, ended]
        exact foldl_endedBy_ne_none closed
    have whole : performAll (scanTokenAt alphanumeric text) (.withCachePolicy policy)
        (operations ++ List.replicate count .consume) = some (first ++ more, last) := by
      rw [performAll_append, performed]
      simp only [some_bind, later]
    obtain ⟨returned, source', front, ends, rest, performed', _, _, lossless, ends_ne⟩ :=
      run (operations ++ List.replicate count .consume)
    obtain ⟨rfl, rfl⟩ := Prod.mk.inj (Option.some.inj (whole.symm.trans performed'))
    rcases lossless.eof with ⟨none', _⟩ | ⟨eof, rfl, _, at_, _⟩
    · exact absurd none' (ends_ne closed)
    · refine ⟨count, le, first ++ more, last, front, eof, rest, whole, ?_⟩
      rw [← at_]
      exact lossless

/-- With a cache, an end of file that carries trivia is returned as often as it is consumed: the full ranges of
the tokens do not abut. -/
theorem cached_end_of_file_repeats :
    ∃ returned source,
      performAll (scanTokenAt (fun _ => false) [' ']) (.withCachePolicy .cacheTokens) [.consume, .consume] =
          some (returned, source) ∧
        ¬ ∃ finish, Tiles [' '] 0 ((consumed [.consume, .consume] returned).map SyntaxToken.fullRange) finish := by
  refine ⟨[[⟨.endOfFileToken, ⟨1, 1⟩, [⟨.whitespaceTrivia, ⟨0, 1⟩⟩], []⟩],
      [⟨.endOfFileToken, ⟨1, 1⟩, [⟨.whitespaceTrivia, ⟨0, 1⟩⟩], []⟩]],
    ⟨1, .cacheTokens, [⟨.endOfFileToken, ⟨1, 1⟩, [⟨.whitespaceTrivia, ⟨0, 1⟩⟩], []⟩]⟩, by decide +kernel, ?_⟩
  rintro ⟨finish, tiles⟩
  have abuts : (0 : Nat) = 1 := tiles.2.2.2.1
  cases abuts

end Bray.Lexer
